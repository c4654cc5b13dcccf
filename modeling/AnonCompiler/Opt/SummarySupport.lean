import AnonCompiler.Opt.ReturnSummary

/-!
# What the summaries rest on

A set of values is supported when each of its members is a seed, follows from
other members by a rule of `valueIsNonneg`, or is a block parameter that
receives members along every edge.  Membership may be circular: that the
members are non-negative is a matter of the order in which a run computes them,
and not of the order in which the analysis found them.

The facts of `nonnegInFunction` are supported, growing the set of functions
keeps a set supported, and the parameters `alwaysNonnegParams` leaves are
provable at all sites with the final sets.
-/

set_option autoImplicit false

namespace AnonCompiler.Opt.ReturnSummary

open Ir Lib

variable {P : Program} {F : FunctionData}

/-- Every member is a seed, follows from members by a rule, or receives members
along every edge. -/
def Supported (P : Program) (F : FunctionData) (seeds : Inst → Prop) (nonneg : List Function)
    (D : Inst → Bool) : Prop :=
  ∀ inst, D inst = true → seeds inst ∨ ruleHolds P F nonneg D inst = true ∨
    ∃ bb position, (F.blockParams bb)[position]? = some inst ∧ edgesProve F D bb position = true

/-! ## Monotonicity -/

section Monotone

variable {nonneg nonneg' : List Function} {check check' : Inst → Bool}

variable {inst : Inst} {fuel : Nat}

theorem binaryRule_mono (weaker : ∀ v, check v = true → check' v = true) {op : BinaryOp}
    {lhs rhs : Inst} (h : binaryRule P F check op lhs rhs = true) :
    binaryRule P F check' op lhs rhs = true := by
  cases op <;> simp only [binaryRule, Bool.and_eq_true, reduceCtorEq] at *
  case rem => exact weaker _ h
  case shr => exact weaker _ h
  case sar => exact weaker _ h
  case and => exact ⟨weaker _ h.1, weaker _ h.2⟩
  case div => exact ⟨weaker _ h.1, h.2⟩

theorem callRule_mono (more : nonneg ⊆ nonneg') (weaker : ∀ v, check v = true → check' v = true)
    {callee : Function} {args : List Inst} (h : callRule P nonneg check callee args = true) :
    callRule P nonneg' check' callee args = true := by
  unfold callRule at *
  split at h
  · next builtin =>
      rw [if_pos builtin]
      split at h
      · rw [Bool.and_eq_true] at *
        exact ⟨weaker _ h.1, weaker _ h.2⟩
      · cases h
  · next other =>
      rw [if_neg other]
      simp only [Bool.and_eq_true, List.contains_iff_mem, List.all_eq_true] at *
      exact ⟨more h.1, fun arg member => weaker _ (h.2 arg member)⟩

theorem ruleHolds_mono (more : nonneg ⊆ nonneg') (weaker : ∀ v, check v = true → check' v = true)
    (h : ruleHolds P F nonneg check inst = true) : ruleHolds P F nonneg' check' inst = true := by
  obtain ⟨kind, isKind, rule⟩ := Option.any_eq_true _ _ |>.mp h
  refine Option.any_eq_true _ _ |>.mpr ⟨kind, isKind, ?_⟩
  cases kind with
  | integer value => exact rule
  | zeroInit => rfl
  | binary op lhs rhs => exact binaryRule_mono weaker rule
  | select cond ifTrue ifFalse =>
    obtain ⟨first, second⟩ := Bool.and_eq_true_iff.mp rule
    exact Bool.and_eq_true_iff.mpr ⟨weaker _ first, weaker _ second⟩
  | call callee args => exact callRule_mono more weaker rule
  | _ => exact absurd rule Bool.false_ne_true

theorem edgesProve_mono (weaker : ∀ v, check v = true → check' v = true) {bb : BasicBlock}
    {position : Nat} (h : edgesProve F check bb position = true) :
    edgesProve F check' bb position = true := by
  simp only [edgesProve, Bool.and_eq_true, List.all_eq_true] at *
  refine ⟨h.1, fun edge incoming => ?_⟩
  obtain ⟨arg, isArg, holds⟩ := Option.any_eq_true _ _ |>.mp (h.2 edge incoming)
  exact Option.any_eq_true _ _ |>.mpr ⟨arg, isArg, weaker _ holds⟩

theorem Supported.mono_functions {seeds : Inst → Prop} {D : Inst → Bool} (more : nonneg ⊆ nonneg')
    (h : Supported P F seeds nonneg D) : Supported P F seeds nonneg' D := by
  intro inst member
  rcases h inst member with seed | rule | edges
  · exact .inl seed
  · exact .inr (.inl (ruleHolds_mono more (fun _ => id) rule))
  · exact .inr (.inr edges)

variable {facts facts' : List Inst}

theorem valueIsNonneg_mono (more : facts ⊆ facts')
    (h : valueIsNonneg P F nonneg facts fuel inst = true) :
    valueIsNonneg P F nonneg facts' fuel inst = true := by
  induction fuel generalizing inst with
  | zero =>
    simp only [valueIsNonneg, List.contains_iff_mem] at *
    exact more h
  | succ fuel ih =>
    simp only [valueIsNonneg, Bool.or_eq_true, List.contains_iff_mem] at *
    exact h.imp (fun member => more member) (ruleHolds_mono (List.Subset.refl _) fun _ => ih)

theorem valueIsNonneg_succ (h : valueIsNonneg P F nonneg facts fuel inst = true) :
    valueIsNonneg P F nonneg facts (fuel + 1) inst = true := by
  induction fuel generalizing inst with
  | zero =>
    simp only [valueIsNonneg, Bool.or_eq_true] at *
    exact .inl h
  | succ fuel ih =>
    rw [valueIsNonneg] at h ⊢
    simp only [Bool.or_eq_true] at *
    exact h.imp id (ruleHolds_mono (List.Subset.refl _) fun _ => ih)

theorem proves_mono (more : facts ⊆ facts') (h : proves P F nonneg facts inst = true) :
    proves P F nonneg facts' inst = true :=
  valueIsNonneg_mono more h

theorem proves_of_mem (member : inst ∈ facts) : proves P F nonneg facts inst = true := by
  unfold proves
  cases F.nextInst <;> simp [valueIsNonneg, member]

/-- What is provable is a fact, or follows by a rule from what is provable. -/
theorem proves_cases (h : proves P F nonneg facts inst = true) :
    inst ∈ facts ∨ ruleHolds P F nonneg (proves P F nonneg facts) inst = true := by
  unfold proves at h
  cases size : F.nextInst with
  | zero =>
    rw [size] at h
    exact .inl (by simpa [valueIsNonneg] using h)
  | succ fuel =>
    rw [size, valueIsNonneg, Bool.or_eq_true, List.contains_iff_mem] at h
    refine h.imp id (ruleHolds_mono (List.Subset.refl _) fun v smaller => ?_)
    rw [proves, size]
    exact valueIsNonneg_succ smaller

end Monotone

/-! ## The facts of one function -/

section Facts

variable {seeds : Inst → Prop} {nonneg : List Function}

/-- A justified fact may be added. -/
theorem supported_addFact {facts : List Inst} {inst : Inst} {holds : Bool}
    (h : Supported P F seeds nonneg (proves P F nonneg facts))
    (justified : holds = true → proves P F nonneg facts inst = true ∨
      ∃ bb position, (F.blockParams bb)[position]? = some inst ∧
        edgesProve F (proves P F nonneg facts) bb position = true) :
    Supported P F seeds nonneg (proves P F nonneg (addFact facts inst holds)) := by
  unfold addFact
  split
  · next added =>
      have larger : ∀ v, proves P F nonneg facts v = true →
          proves P F nonneg (inst :: facts) v = true :=
            fun v => proves_mono (List.subset_cons_self ..)
      have old : ∀ v, proves P F nonneg facts v = true → seeds v ∨
          ruleHolds P F nonneg (proves P F nonneg (inst :: facts)) v = true ∨
          ∃ bb position, (F.blockParams bb)[position]? = some v ∧
            edgesProve F (proves P F nonneg (inst :: facts)) bb position = true := by
        intro v proved
        rcases h v proved with seed | rule | ⟨bb, position, isParam, edges⟩
        · exact .inl seed
        · exact .inr (.inl (ruleHolds_mono (List.Subset.refl _) larger rule))
        · exact .inr (.inr ⟨bb, position, isParam, edgesProve_mono larger edges⟩)
      intro v member
      rcases proves_cases member with isFact | rule
      · rcases List.mem_cons.mp isFact with rfl | earlier
        · have isJustified := justified (Bool.and_eq_true_iff.mp added).2
          rcases isJustified with proved | ⟨bb, position, isParam, edges⟩
          · exact old v proved
          · exact .inr (.inr ⟨bb, position, isParam, edgesProve_mono larger edges⟩)
        · exact old v (proves_of_mem earlier)
      · exact .inr (.inl rule)
  · exact h

theorem mem_paramBlocks {param : Inst} {bb : BasicBlock} {position : Nat}
    (h : (param, bb, position) ∈ paramBlocks F) : (F.blockParams bb)[position]? = some param := by
  obtain ⟨bb', -, inBlock⟩ := List.mem_flatMap.mp h
  obtain ⟨⟨param', position'⟩, listed, isEntry⟩ := List.mem_filterMap.mp inBlock
  dsimp only at isEntry
  split at isEntry
  · cases isEntry
    exact List.mk_mem_zipIdx_iff_getElem?.mp listed
  · cases isEntry

theorem foldl_invariant {α β : Type} {Q : β → Prop} {step : β → α → β} {list : List α}
    (keeps : ∀ {b a}, a ∈ list → Q b → Q (step b a)) {b : β} (h : Q b) : Q (list.foldl step b) := by
  induction list generalizing b with
  | nil => exact h
  | cons first rest ih =>
    exact ih (fun member => keeps (List.mem_cons_of_mem _ member))
      (keeps (List.mem_cons_self ..) h)

theorem supported_round {facts next : List Inst}
    (h : Supported P F seeds nonneg (proves P F nonneg facts))
    (stepped : round P F nonneg facts = some next) :
    Supported P F seeds nonneg (proves P F nonneg next) := by
  unfold round at stepped
  dsimp only at stepped
  split at stepped
  · cases stepped
  obtain rfl := Option.some.inj stepped
  have settled : Supported P F seeds nonneg
      (proves P F nonneg (settleParams P F nonneg facts)) := by
    refine foldl_invariant (Q := fun facts => Supported P F seeds nonneg (proves P F nonneg facts))
      (fun {facts entry} listed supported => ?_) h
    obtain ⟨param, bb, position⟩ := entry
    exact supported_addFact supported fun edges =>
      .inr ⟨bb, position, mem_paramBlocks listed, edges⟩
  refine foldl_invariant (Q := fun facts => Supported P F seeds nonneg (proves P F nonneg facts))
    (fun {facts entry} _ supported => ?_) settled
  obtain ⟨bb, insts⟩ := entry
  dsimp only
  split
  · exact foldl_invariant (Q := fun facts => Supported P F seeds nonneg (proves P F nonneg facts))
      (fun _ supported => supported_addFact supported fun proved => .inl proved) supported
  · exact supported

/-- The facts of a function are members of a supported set. -/
theorem nonnegInFunction_supported (wellFormed : F.WellFormed) (params : List Inst)
    (nonneg : List Function) :
    Supported P F (· ∈ params) nonneg (proves P F nonneg (nonnegInFunction P F params nonneg)) := by
  have initial : Supported P F (· ∈ params) nonneg
      (proves P F nonneg (params ++ (List.range F.nextInst).filter (isNonnegConstant F))) := by
    intro inst member
    rcases proves_cases member with isFact | rule
    · rcases List.mem_append.mp isFact with seed | constant
      · exact .inl seed
      · obtain ⟨-, isConstant⟩ := List.mem_filter.mp constant
        refine .inr (.inl ?_)
        unfold isNonnegConstant at isConstant
        cases found : F.insts inst with
        | none => simp [FunctionData.kind, found] at isConstant
        | some data =>
          obtain ⟨ty, kind⟩ := data
          have isKind : kindIn P F inst = some kind := by
            simp [kindIn, wellFormed.instData_eq found]
          rw [FunctionData.kind, found] at isConstant
          rw [ruleHolds, isKind, Option.any_some]
          cases kind with
          | integer value => exact isConstant
          | zeroInit => rfl
          | _ => exact absurd isConstant Bool.false_ne_true
    · exact .inr (.inl rule)
  unfold nonnegInFunction
  dsimp only
  split
  · exact initial
  · exact iterate_invariant
      (Q := fun facts => Supported P F (· ∈ params) nonneg (proves P F nonneg facts))
      (fun supported stepped => supported_round supported stepped) _ initial

end Facts

/-! ## The two summaries -/

/-- The values `f` returns belong to a set that is supported by its
parameters. -/
def Summarised (P : Program) (nonneg : List Function) (f : Function) : Prop :=
  ∃ F D, definedData P f = some F ∧ Supported P F (· ∈ F.params) nonneg D ∧
    ∀ inst ∈ F.layoutInsts, ∀ value, F.kind inst = some (.ret (some value)) → D value = true

variable {nonneg : List Function} {f : Function}

theorem Summarised.mono {nonneg' : List Function} (more : nonneg ⊆ nonneg')
    (h : Summarised P nonneg f) : Summarised P nonneg' f := by
  obtain ⟨F, D, defined, supported, returned⟩ := h
  exact ⟨F, D, defined, supported.mono_functions more, returned⟩

theorem definedData_eq_some : definedData P f = some F ↔ P.funcData f = some F ∧ F.layout ≠ [] := by
  unfold definedData isDecl
  rw [Option.filter_eq_some_iff]
  simp

theorem summarised_tryCandidate (wellFormed : P.WellFormed) {pure : List Function}
    (h : ∀ g ∈ nonneg, Summarised P nonneg g) :
    ∀ g ∈ tryCandidate P pure nonneg f, Summarised P (tryCandidate P pure nonneg f) g := by
  unfold tryCandidate
  split
  · exact h
  · next F defined =>
      split
      · next accepted =>
          simp only [Bool.and_eq_true, returnsAreNonneg, List.all_eq_true] at accepted
          obtain ⟨-, returned⟩ := accepted
          have data := (definedData_eq_some.mp defined).1
          intro g member
          rcases List.mem_cons.mp member with rfl | earlier
          · refine ⟨F, _, defined,
              nonnegInFunction_supported (wellFormed.function data).1 F.params (g :: nonneg), ?_⟩
            intro inst laidOut value isRet
            have checked := returned inst laidOut
            simp only [isRet, List.contains_iff_mem] at checked
            exact proves_of_mem checked
          · exact (h g earlier).mono (List.subset_cons_self ..)
      · exact h

/-- Every function of the summary was checked against a part of it. -/
theorem summarised_of_mem (wellFormed : P.WellFormed) (member : f ∈ nonnegPreservingFunctions P) :
    Summarised P (nonnegPreservingFunctions P) f := by
  have all : ∀ g ∈ nonnegPreservingFunctions P, Summarised P (nonnegPreservingFunctions P) g := by
    refine iterate_invariant (Q := fun nonneg => ∀ g ∈ nonneg, Summarised P nonneg g)
      (fun {nonneg next} h stepped => ?_) _ (by simp)
    unfold admitAll at stepped
    dsimp only at stepped
    split at stepped
    · cases stepped
    · obtain rfl := Option.some.inj stepped
      exact foldl_invariant (Q := fun nonneg => ∀ g ∈ nonneg, Summarised P nonneg g)
        (fun _ h => summarised_tryCandidate wellFormed h) h
  exact all f member

theorem sum_filter_lt {α : Type} [DecidableEq α] {keep : Function × List α → α → Bool}
    {table : List (Function × List α)}
    (changed : table.map (fun entry => (entry.1, entry.2.filter (keep entry))) ≠ table) :
    ((table.map fun entry => (entry.1, entry.2.filter (keep entry))).map (·.2.length)).sum <
      (table.map (·.2.length)).sum := by
  induction table with
  | nil => simp at changed
  | cons first rest ih =>
    have shorter := List.length_filter_le (keep first) first.2
    simp only [List.map_cons, List.sum_cons]
    by_cases unchanged : first.2.filter (keep first) = first.2
    · have later : rest.map (fun entry => (entry.1, entry.2.filter (keep entry))) ≠ rest := by
        intro same
        apply changed
        rw [List.map_cons, same, unchanged]
      have := ih later
      omega
    · have strictly : (first.2.filter (keep first)).length < first.2.length := by
        refine Nat.lt_of_le_of_ne shorter fun same => unchanged ?_
        exact List.filter_sublist.eq_of_length same
      have : ((rest.map fun entry => (entry.1, entry.2.filter (keep entry))).map
          (·.2.length)).sum ≤ (rest.map (·.2.length)).sum := by
        by_cases same : rest.map (fun entry => (entry.1, entry.2.filter (keep entry))) = rest
        · rw [same]
        · exact Nat.le_of_lt (ih same)
      omega

/-- A parameter that is left is provable at all sites, with the parameters that
are left. -/
theorem provable_of_mem {param : Inst} (defined : definedData P f = some F)
    (member : param ∈ paramsOf (alwaysNonnegParams P nonneg) f) :
    param ∈ F.params ∧ paramProvableAtAllSites P nonneg (alwaysNonnegParams P nonneg) f
      (F.params.idxOf param) = true := by
  have stable : dropParams P nonneg (alwaysNonnegParams P nonneg) = none := by
    refine iterate_stable (dropParams P nonneg)
      (fun current : ParamMap => (current.map (·.2.length)).sum)
      (fun {current next} stepped => ?_) (Nat.le_refl _)
    unfold dropParams at stepped
    dsimp only at stepped
    split at stepped
    · cases stepped
    · next changed =>
        obtain rfl := Option.some.inj stepped
        exact sum_filter_lt changed
  have candidates : ∀ entry ∈ alwaysNonnegParams P nonneg, ∀ param ∈ entry.2, ∀ G,
      definedData P entry.1 = some G → param ∈ G.params := by
    refine iterate_invariant (Q := fun current : ParamMap => ∀ entry ∈ current, ∀ param ∈ entry.2,
      ∀ G, definedData P entry.1 = some G → param ∈ G.params)
        (fun {current next} h stepped => ?_) _ ?_
    · unfold dropParams at stepped
      dsimp only at stepped
      split at stepped
      · cases stepped
      · obtain rfl := Option.some.inj stepped
        intro entry listed param inside G defined'
        obtain ⟨entry', listed', rfl⟩ := List.mem_map.mp listed
        exact h entry' listed' param (List.mem_filter.mp inside).1 G defined'
    · intro entry listed param inside G defined'
      obtain ⟨g, -, isEntry⟩ := List.mem_filterMap.mp listed
      obtain ⟨G', defined₁, rfl⟩ := Option.map_eq_some_iff.mp isEntry
      obtain rfl := Option.some.inj (defined₁.symm.trans defined')
      exact (List.mem_filter.mp inside).1
  generalize alwaysNonnegParams P nonneg = left at *
  unfold paramsOf at member
  cases found : left.lookup f with
  | none => simp [found] at member
  | some params =>
    rw [found, Option.getD_some] at member
    have listed := mem_of_lookup found
    refine ⟨candidates _ listed param member F defined, ?_⟩
    unfold dropParams at stable
    dsimp only at stable
    split at stable
    · next same =>
        have unchanged := List.map_eq_map_iff.mp (same.trans (List.map_id left).symm)
        have kept := (Prod.mk.inj (unchanged _ listed)).2
        have := List.filter_eq_self.mp kept param member
        simpa [defined] using this
    · cases stable

end AnonCompiler.Opt.ReturnSummary
