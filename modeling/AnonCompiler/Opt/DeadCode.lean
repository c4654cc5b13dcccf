import AnonCompiler.Opt.Effects
import AnonCompiler.Lib.Fixpoint
import AnonCompiler.Ir.LocalSim
import AnonCompiler.Ir.OpenRun

/-!
# Dead code elimination

The pass `opt/passes/dce.rs`: mark what the critical instructions need, remove the
rest of the layout.  The pass lists the operands of every kind by hand
(`markedOperands`), and what it lists is what the kind reads.  The mark phase ends:
a marked instruction is a candidate, and each is marked once.

The set of live instructions is a list in the order of marking.
-/

set_option autoImplicit false

namespace AnonCompiler.Opt.DeadCode

open Ir Lib

/-- The calls whose callee the analysis calls removable. -/
def removableCalls (A : EffectAnalysis) (F : FunctionData) : List Inst :=
  F.layoutInsts.filter fun inst =>
    match F.kind inst with
    | some (.call callee _) => (A.effects callee).isRemovable
    | _ => false

/-- `none` is a kind that must not be laid out. -/
def isCritical (removable : List Inst) (inst : Inst) : InstKind → Option Bool
  | .branch .. | .jump .. | .store .. | .memZero .. | .ret _ | .tailCall .. => some true
  | .globalAlloc _ | .blockArgRef _ | .aggregate _ | .undef | .zeroInit | .integer _ => none
  | .cast _ | .float _ | .alloc | .load _ | .getElemPtr .. | .binary .. | .select .. | .fma ..
  | .vectorSplat _ | .vectorExtractElement .. | .vectorInsertElement .. | .vectorReduce _ =>
    some false
  | .call .. => some (inst ∉ removable)

structure Marking where
  worklist : List Inst
  live : List Inst

def Marking.markLive (s : Marking) (inst : Inst) : Marking :=
  if inst ∉ s.live ∧ inst.isGlobal = false then ⟨s.worklist ++ [inst], s.live ++ [inst]⟩ else s

/-- The critical instructions of the layout. -/
def initiate (P : Program) (F : FunctionData) (removable : List Inst) : Option Marking :=
  F.layoutInsts.foldlM (fun s inst => do
    let data ← P.instData F inst
    let critical ← isCritical removable inst data.kind
    some (if critical then s.markLive inst else s)) ⟨[], []⟩

/-- The operands the mark phase lists for a kind. -/
def markedOperands : InstKind → List Inst
  | .globalAlloc _ | .alloc | .blockArgRef _ | .undef | .zeroInit | .float _ | .integer _ => []
  | .aggregate value => value
  | .cast src => [src]
  | .ret none => []
  | .ret (some value) => [value]
  | .store src dest => [src, dest]
  | .memZero dest (.value byteLen) => [dest, byteLen]
  | .memZero dest (.const _) => [dest]
  | .load src => [src]
  | .getElemPtr base offsets => base :: offsets
  | .binary _ lhs rhs => [lhs, rhs]
  | .select cond ifTrue ifFalse => [cond, ifTrue, ifFalse]
  | .fma acc lhs rhs => [acc, lhs, rhs]
  | .vectorSplat src => [src]
  | .vectorExtractElement src index => [src, index]
  | .vectorInsertElement vector element index => [vector, element, index]
  | .vectorReduce src => [src]
  | .branch cond _ tArgs _ fArgs => cond :: tArgs ++ fArgs
  | .jump _ args => args
  | .call _ args => args
  | .tailCall _ args => args

/-- Take the first instruction of the worklist and mark its operands.  An instruction
that is no longer there is skipped. -/
def growStep (P : Program) (F : FunctionData) (s : Marking) : Option (Marking ⊕ List Inst) :=
  match s.worklist with
  | [] => some (.inr s.live)
  | inst :: worklist =>
    if (F.insts inst).isNone ∧ inst.isGlobal = false then some (.inl { s with worklist })
    else do
      let data ← P.instData F inst
      some (.inl ((markedOperands data.kind).foldl Marking.markLive { s with worklist }))

/-- Everything that can be marked. -/
def candidates (F : FunctionData) : List Inst :=
  F.layoutInsts ++ (List.range F.nextInst).flatMap fun inst =>
    ((F.kind inst).map markedOperands).getD []

/-- The instructions of the layout that are not live, with their blocks. -/
def renameList (F : FunctionData) (live : List Inst) : List (Inst × BasicBlock) :=
  F.layout.flatMap fun entry => (entry.2.filter (· ∉ live)).map fun inst => (inst, entry.1)

def sweep (F : FunctionData) (dead : List (Inst × BasicBlock)) : FunctionData :=
  dead.foldl (fun G entry => G.removeLayoutInst entry.2 entry.1) F

/-- The function after the pass, and whether it has changed. -/
def runOnFunc (P : Program) (F : FunctionData) (removable : List Inst) :
    Option (FunctionData × Bool) := do
  let s ← initiate P F removable
  let live ← loop (growStep P F) ((candidates F).length + 1) s
  let dead := renameList F live
  some (sweep F dead, !dead.isEmpty)

/-- Without the analysis no call is removable. -/
def runOn (P : Program) (F : FunctionData) : Option (FunctionData × Bool) := runOnFunc P F []

def run (A : EffectAnalysis) (P : Program) : Option (Program × Bool) :=
  P.functionLayout.foldlM (fun state func => do
    let F ← state.1.funcData func
    let (F', changed) ← runOnFunc state.1 F (removableCalls A F)
    some (state.1.withFunction func F', state.2 || changed)) (P, false)

/-! ## The mark phase -/

/-- The list names every operand of a local kind. -/
theorem markedOperands_eq {kind : InstKind} (notGlobal : ∀ init, kind ≠ .globalAlloc init) :
    markedOperands kind = kind.instUsage := by
  cases kind with
  | globalAlloc init => exact absurd rfl (notGlobal init)
  | memZero dest byteLen => cases byteLen <;> rfl
  | ret value => cases value <;> rfl
  | _ => rfl

section Mark

variable {P : Program} {F : FunctionData} {removable pending : List Inst} {s t : Marking}
  {inst x : Inst}

theorem Marking.mem_markLive : x ∈ (s.markLive inst).live ↔
    x ∈ s.live ∨ x = inst ∧ inst.isGlobal = false := by
  unfold markLive
  split
  · next fresh => simp [fresh.2]
  · next old =>
      constructor
      · exact .inl
      · rintro (live | ⟨rfl, isLocal⟩)
        · exact live
        · by_contra notLive
          exact old ⟨notLive, isLocal⟩

theorem Marking.subset_markLive : s.live ⊆ (s.markLive inst).live := fun _ live =>
  mem_markLive.mpr (.inl live)

/-- The operands of a marked instruction that has been taken are marked. -/
def Marking.Done (P : Program) (F : FunctionData) (s : Marking) (x : Inst) : Prop :=
  ∀ {data}, P.instData F x = some data → ∀ y ∈ markedOperands data.kind,
    y ∈ s.live ∨ y.isGlobal = true

/-- What holds throughout the mark phase; the operands of `pending` are being marked. -/
structure Marking.Sound (P : Program) (F : FunctionData) (pending : List Inst) (s : Marking) :
    Prop where
  nodup : s.live.Nodup
  isLocal : ∀ {x}, x ∈ s.live → x.isGlobal = false
  within : s.live ⊆ candidates F
  waits : s.worklist ⊆ s.live
  done : ∀ {x}, x ∈ s.live → x ∈ s.worklist ∨ x ∈ pending ∨ s.Done P F x

theorem Marking.Sound.markLive (sound : s.Sound P F pending) (candidate : inst ∈ candidates F) :
    (s.markLive inst).Sound P F pending := by
  by_cases fresh : inst ∉ s.live ∧ inst.isGlobal = false
  · have marked : s.markLive inst = ⟨s.worklist ++ [inst], s.live ++ [inst]⟩ := if_pos fresh
    rw [marked]
    refine ⟨?_, ?_, ?_, ?_, ?_⟩
    · exact List.nodup_append.mpr ⟨sound.nodup, List.nodup_singleton _, fun x live y isInst same =>
        fresh.1 (List.mem_singleton.mp isInst ▸ same ▸ live)⟩
    · intro x live
      rcases List.mem_append.mp live with old | new
      · exact sound.isLocal old
      · exact List.mem_singleton.mp new ▸ fresh.2
    · intro x live
      rcases List.mem_append.mp live with old | new
      · exact sound.within old
      · exact List.mem_singleton.mp new ▸ candidate
    · exact List.append_subset.mpr
        ⟨List.Subset.trans sound.waits (List.subset_append_left ..), List.subset_append_right ..⟩
    · intro x live
      rcases List.mem_append.mp live with old | new
      · rcases sound.done old with waits | isPending | done
        · exact .inl (List.mem_append_left _ waits)
        · exact .inr (.inl isPending)
        · refine .inr (.inr ?_)
          exact fun found y used => (done found y used).imp_left (List.mem_append_left _)
      · exact .inl (List.mem_append_right _ new)
  · have marked : s.markLive inst = s := if_neg fresh
    rwa [marked]

/-- The worklist grows with the set. -/
theorem Marking.markLive_length (s : Marking) (inst : Inst) : (s.markLive inst).worklist.length +
    s.live.length =
    s.worklist.length + (s.markLive inst).live.length := by
  unfold Marking.markLive
  split
  · simp only [List.length_append]
    omega
  · rfl

/-- Marking some operands. -/
structure Marking.MarkedAll (s : Marking) (insts : List Inst) (t : Marking) : Prop where
  live : ∀ {x}, x ∈ t.live ↔ x ∈ s.live ∨ x ∈ insts ∧ x.isGlobal = false
  length : t.worklist.length + s.live.length = s.worklist.length + t.live.length

theorem Marking.markAll (s : Marking) (insts : List Inst) :
    s.MarkedAll insts (insts.foldl Marking.markLive s) := by
  induction insts generalizing s with
  | nil => exact ⟨by simp, rfl⟩
  | cons first insts ih =>
    obtain ⟨live, length⟩ := ih (s.markLive first)
    refine ⟨fun {x} => ?_, ?_⟩
    · rw [List.foldl_cons, live, mem_markLive]
      constructor
      · rintro ((old | ⟨rfl, isLocal⟩) | ⟨later, isLocal⟩)
        · exact .inl old
        · exact .inr ⟨List.mem_cons_self .., isLocal⟩
        · exact .inr ⟨List.mem_cons_of_mem _ later, isLocal⟩
      · rintro (old | ⟨member, isLocal⟩)
        · exact .inl (.inl old)
        · rcases List.mem_cons.mp member with rfl | later
          · exact .inl (.inr ⟨rfl, isLocal⟩)
          · exact .inr ⟨later, isLocal⟩
    · have once := s.markLive_length first
      rw [List.foldl_cons]
      omega

theorem Marking.Sound.markAll (sound : s.Sound P F pending) {insts : List Inst}
    (inside : ∀ x ∈ insts, x ∈ candidates F) :
    (insts.foldl Marking.markLive s).Sound P F pending := by
  induction insts generalizing s with
  | nil => exact sound
  | cons first insts ih =>
    exact ih (sound.markLive (inside first (List.mem_cons_self ..)))
      fun x later => inside x (List.mem_cons_of_mem _ later)

theorem instData_of_isLocal (isLocal : x.isGlobal = false) : P.instData F x = F.insts x := by
  simp [Program.instData, isLocal]

/-- The operands of a marked instruction can be marked. -/
theorem markedOperands_candidates (wellFormed : F.WellFormed) {data : InstData}
    (found : F.insts inst = some data) : ∀ x ∈ markedOperands data.kind, x ∈ candidates F := by
  intro x used
  refine List.mem_append_right _ (List.mem_flatMap.mpr ⟨inst, ?_, ?_⟩)
  · exact List.mem_range.mpr (wellFormed.inst_lt (by simp [found]))
  · simpa [FunctionData.kind, found] using used

/-- One round of the mark phase. -/
theorem growStep_spec (wellFormed : F.WellFormed) (sound : s.Sound P F []) :
    (s.worklist = [] ∧ growStep P F s = some (.inr s.live)) ∨
      ∃ t, growStep P F s = some (.inl t) ∧ t.Sound P F [] ∧ s.live ⊆ t.live ∧
        t.worklist.length + s.live.length + 1 = s.worklist.length + t.live.length := by
  cases waits : s.worklist with
  | nil => exact .inl ⟨rfl, by simp [growStep, waits]⟩
  | cons inst worklist =>
    right
    have isLive : inst ∈ s.live := sound.waits (by simp [waits])
    have isLocal := sound.isLocal isLive
    have left : Marking.Sound P F [inst] { s with worklist } := by
      refine ⟨sound.nodup, sound.isLocal, sound.within, fun x later => ?_, fun {x} live => ?_⟩
      · exact sound.waits (by simp [waits, show x ∈ worklist from later])
      · rcases sound.done live with here | isPending | done
        · rw [waits] at here
          rcases List.mem_cons.mp here with rfl | later
          · exact .inr (.inl (List.mem_singleton_self _))
          · exact .inl later
        · cases isPending
        · exact .inr (.inr done)
    cases found : F.insts inst with
    | none =>
      refine ⟨{ s with worklist }, by simp [growStep, waits, found, isLocal], ?_,
        List.Subset.refl _, by simp; omega⟩
      refine ⟨left.nodup, left.isLocal, left.within, left.waits, fun {x} live => ?_⟩
      rcases left.done live with later | here | done
      · exact .inl later
      · refine .inr (.inr fun {data} found' => ?_)
        rw [List.mem_singleton.mp here, instData_of_isLocal isLocal, found] at found'
        cases found'
      · exact .inr (.inr done)
    | some data =>
      have inData : P.instData F inst = some data := (instData_of_isLocal isLocal).trans found
      have all := Marking.markAll { s with worklist } (markedOperands data.kind)
      have grown := left.markAll (markedOperands_candidates wellFormed found)
      refine ⟨_, by simp [growStep, waits, found, inData], ?_,
        fun x live => all.live.mpr (.inl live), ?_⟩
      · refine ⟨grown.nodup, grown.isLocal, grown.within, grown.waits, fun {x} live => ?_⟩
        rcases grown.done live with later | here | done
        · exact .inl later
        · refine .inr (.inr fun {data'} found' y used => ?_)
          rw [List.mem_singleton.mp here, inData] at found'
          obtain rfl := Option.some.inj found'
          cases isGlobal : y.isGlobal with
          | true => exact .inr rfl
          | false => exact .inl (all.live.mpr (.inr ⟨used, isGlobal⟩))
        · exact .inr (.inr done)
      · have := all.length
        simp only [List.length_cons] at this ⊢
        omega

/-- What the mark phase delivers: every critical instruction of the layout, and with an
instruction its operands. -/
structure Live (P : Program) (F : FunctionData) (removable live : List Inst) : Prop where
  critical : ∀ {x data}, x ∈ F.layoutInsts → F.insts x = some data →
    isCritical removable x data.kind = some true → x ∈ live
  closed : ∀ {x data}, x ∈ live → F.insts x = some data → ∀ y ∈ markedOperands data.kind,
    y ∈ live ∨ y.isGlobal = true

/-- The first marks. -/
theorem initiate_spec (removable : List Inst) (wellFormed : F.WellFormed) (ssa : F.Ssa) :
    ∃ s, initiate P F removable = some s ∧ s.Sound P F [] ∧
      s.worklist.length = s.live.length ∧
      ∀ {x data}, x ∈ F.layoutInsts → F.insts x = some data →
        isCritical removable x data.kind = some true → x ∈ s.live := by
  have start : Marking.Sound P F [] ⟨[], []⟩ :=
    ⟨List.nodup_nil, (nomatch ·), List.nil_subset _, List.nil_subset _, (nomatch ·)⟩
  -- along the layout, with what comes before it already marked
  have along : ∀ (insts : List Inst) (s : Marking), insts ⊆ F.layoutInsts → s.Sound P F [] →
      s.worklist.length = s.live.length → ∃ t, insts.foldlM (fun s inst => do
        let data ← P.instData F inst
        let critical ← isCritical removable inst data.kind
        some (if critical then s.markLive inst else s)) s = some t ∧ t.Sound P F [] ∧
      t.worklist.length = t.live.length ∧ s.live ⊆ t.live ∧
      ∀ {x data}, x ∈ insts → F.insts x = some data →
        isCritical removable x data.kind = some true → x ∈ t.live := by
    intro insts
    induction insts with
    | nil =>
      intro s _ sound same
      exact ⟨s, rfl, sound, same, List.Subset.refl _, (nomatch ·)⟩
    | cons first insts ih =>
      intro s inside sound same
      have laidOut : first ∈ F.layoutInsts := inside (List.mem_cons_self ..)
      obtain ⟨data, found, notParam⟩ := wellFormed.laidOut laidOut
      have notConst := ssa.executable laidOut found
      have isLocal := wellFormed.isLocal (by simp [found] : F.insts first ≠ none)
      obtain ⟨critical, isCrit⟩ : ∃ c, isCritical removable first data.kind = some c := by
        obtain ⟨ty, kind⟩ := data
        cases kind <;> first
          | exact ⟨_, rfl⟩
          | exact absurd rfl (notParam _)
          | cases notConst
      have next : (if critical then s.markLive first else s).Sound P F [] := by
        split
        · exact sound.markLive (List.mem_append_left _ laidOut)
        · exact sound
      have same' : (if critical then s.markLive first else s).worklist.length =
          (if critical then s.markLive first else s).live.length := by
        split
        · have := s.markLive_length first
          omega
        · exact same
      obtain ⟨t, run, sound', length, grows, marked⟩ :=
        ih _ (fun x later => inside (List.mem_cons_of_mem _ later)) next same'
      refine ⟨t, ?_, sound', length, fun x live => grows ?_, fun {x data'} member found' crit =>
        ?_⟩
      · rw [List.foldlM_cons, instData_of_isLocal isLocal, found]
        simpa [isCrit] using run
      · split
        · exact Marking.subset_markLive live
        · exact live
      · rcases List.mem_cons.mp member with rfl | later
        · obtain rfl := Option.some.inj (found.symm.trans found')
          obtain rfl := Option.some.inj (isCrit.symm.trans crit)
          exact grows (Marking.mem_markLive.mpr (.inr ⟨rfl, isLocal⟩))
        · exact marked later found' crit
  obtain ⟨s, run, sound, same, -, marked⟩ :=
    along F.layoutInsts ⟨[], []⟩ (List.Subset.refl _) start rfl
  exact ⟨s, run, sound, same, marked⟩

/-- The mark phase ends, with everything that is needed. -/
theorem mark_spec (removable : List Inst) (wellFormed : F.WellFormed) (ssa : F.Ssa) :
    ∃ s live, initiate P F removable = some s ∧
      loop (growStep P F) ((candidates F).length + 1) s = some live ∧ Live P F removable live := by
  obtain ⟨s, run, sound, same, marked⟩ :=
    initiate_spec (P := P) removable wellFormed ssa
  have bounded : ∀ {t : Marking}, t.Sound P F [] → t.live.length ≤ (candidates F).length :=
    fun sound =>
    (List.subperm_of_subset sound.nodup sound.within).length_le
  have total : (loop (growStep P F) ((candidates F).length + 1) s).isSome := by
    refine loop_total (fun t => t.worklist.length + ((candidates F).length - t.live.length))
      (Q := fun t => t.Sound P F []) ?_ sound ?_
    · intro t sound
      rcases growStep_spec wellFormed sound with ⟨-, ended⟩ | ⟨t', stepped, sound', -, length⟩
      · exact ⟨_, ended, fun _ h => nomatch h⟩
      · refine ⟨_, stepped, fun t'' isNext => ?_⟩
        cases isNext
        have := bounded sound
        have := bounded sound'
        exact ⟨sound', by omega⟩
    · have := bounded sound
      omega
  obtain ⟨live, ran⟩ := Option.isSome_iff_exists.mp total
  refine ⟨s, live, run, ran, ?_⟩
  obtain ⟨last, ⟨sound, keeps⟩, ended⟩ := loop_invariant
    (Q := fun t : Marking => t.Sound P F [] ∧ s.live ⊆ t.live) (fun {t t'} holds stepped => by
      rcases growStep_spec wellFormed holds.1 with ⟨-, ended⟩ | ⟨t'', stepped', sound', grows, -⟩
      · rw [ended] at stepped
        cases stepped
      · obtain rfl : t'' = t' := by simpa using stepped'.symm.trans stepped
        exact ⟨sound', List.Subset.trans holds.2 grows⟩) ⟨sound, List.Subset.refl _⟩ ran
  rcases growStep_spec wellFormed sound with ⟨nothing, ended'⟩ | ⟨t', stepped', -⟩
  · obtain rfl : last.live = live := by simpa using ended'.symm.trans ended
    refine ⟨fun laidOut found critical => keeps (marked laidOut found critical), ?_⟩
    intro x data isLive found y used
    rcases sound.done isLive with waits | isPending | done
    · rw [nothing] at waits
      cases waits
    · cases isPending
    · exact done ((instData_of_isLocal (sound.isLocal isLive)).trans found) y used
  · rw [stepped'] at ended
    cases ended

end Mark

/-! ## The sweep -/

/-- The function without the instructions of the layout that are not live. -/
def swept (F : FunctionData) (live : List Inst) : FunctionData :=
  { F with
    layout := F.layout.map fun entry => (entry.1, entry.2.filter (· ∈ live))
    insts := fun x => if x ∈ F.layoutInsts ∧ x ∉ live then none else F.insts x }

section Sweep

variable {F : FunctionData} {live : List Inst} {dead : List (Inst × BasicBlock)}

/-- Removing one instruction after the other removes them all. -/
theorem sweep_eq : sweep F dead =
    { F with
      layout := F.layout.map fun entry =>
        (entry.1, entry.2.filter fun x => (x, entry.1) ∉ dead)
      insts := fun x => if x ∈ dead.map Prod.fst then none else F.insts x } := by
  unfold sweep
  induction dead generalizing F with
  | nil => simp
  | cons first dead ih =>
    obtain ⟨inst, bb⟩ := first
    rw [List.foldl_cons, ih]
    have layout : ((F.removeLayoutInst bb inst).layout.map fun entry =>
        (entry.1, entry.2.filter fun x => (x, entry.1) ∉ dead)) =
        F.layout.map fun entry =>
          (entry.1, entry.2.filter fun x => (x, entry.1) ∉ (inst, bb) :: dead) := by
      simp only [FunctionData.removeLayoutInst, FunctionData.editBlock, FunctionData.removeInstData,
        List.map_map]
      refine List.map_congr_left fun entry _ => ?_
      by_cases here : entry.1 = bb
      · subst here
        simp [List.filter_filter, Bool.and_comm]
      · simp [here]
    have insts : (fun x => if x ∈ dead.map Prod.fst then none
        else (F.removeLayoutInst bb inst).insts x) =
        fun x => if x ∈ ((inst, bb) :: dead).map Prod.fst then none else F.insts x := by
      funext x
      by_cases isInst : x = inst
      · simp [FunctionData.removeLayoutInst, FunctionData.editBlock, FunctionData.removeInstData,
          isInst]
      · have same : x ∈ ((inst, bb) :: dead).map Prod.fst ↔ x ∈ dead.map Prod.fst := by
          rw [List.map_cons, List.mem_cons]
          exact or_iff_right isInst
        simp only [same]
        simp [FunctionData.removeLayoutInst, FunctionData.editBlock, FunctionData.removeInstData,
          isInst]
    rw [layout, insts]
    rfl

theorem mem_renameList {x : Inst} {bb : BasicBlock} : (x, bb) ∈ renameList F live ↔
    ∃ insts, (bb, insts) ∈ F.layout ∧ x ∈ insts ∧ x ∉ live := by
  simp only [renameList, List.mem_flatMap, List.mem_map, List.mem_filter, Prod.mk.injEq,
    decide_eq_true_eq]
  constructor
  · rintro ⟨⟨bb', insts⟩, laidOut, y, ⟨member, notLive⟩, rfl, rfl⟩
    exact ⟨insts, laidOut, member, notLive⟩
  · rintro ⟨insts, laidOut, member, notLive⟩
    exact ⟨(bb, insts), laidOut, x, ⟨member, notLive⟩, rfl, rfl⟩

theorem sweep_renameList : sweep F (renameList F live) = swept F live := by
  rw [sweep_eq, swept]
  congr 1
  · refine List.map_congr_left fun entry laidOut => ?_
    refine Prod.ext rfl (List.filter_congr fun x member => ?_)
    rw [decide_eq_decide, mem_renameList]
    constructor
    · intro stays
      by_contra notLive
      exact stays ⟨entry.2, laidOut, member, notLive⟩
    · rintro isLive ⟨-, -, -, notLive⟩
      exact notLive isLive
  · funext x
    have same : x ∈ (renameList F live).map Prod.fst ↔ x ∈ F.layoutInsts ∧ x ∉ live := by
      simp only [List.mem_map, Prod.exists, mem_renameList, FunctionData.layoutInsts,
        List.mem_flatMap]
      constructor
      · rintro ⟨x', bb, ⟨insts, laidOut, member, notLive⟩, rfl⟩
        exact ⟨⟨bb, insts, laidOut, member⟩, notLive⟩
      · rintro ⟨⟨bb, insts, laidOut, member⟩, notLive⟩
        exact ⟨x, bb, ⟨insts, laidOut, member, notLive⟩, rfl⟩
    simp only [same]

end Sweep

end AnonCompiler.Opt.DeadCode
