import AnonCompiler.Mir.PeepholeUses

/-!
# Fusing the compares of decision trees

The pass `anon_armv8/src/passes/chain_fusion.rs`: a block that consists of a compare and
a conditional branch, and is entered from one block only, which ends with the same compare
and a conditional branch, loses its compare.  Its branch reads the flags across the edge.

`findFusion` is the match of `fuse_block`.  Where it succeeds the flags are already what
the compare would make them, whichever way a run has come, so the function without the
compare runs exactly as before (`runAll_run`).
-/

set_option autoImplicit false

namespace AnonCompiler.Mir.ChainFusion

open VCodeContainer

variable {Op World : Type}

/-! ## The code -/

def isRemoved : MInst Op → Bool
  | .removed => true
  | _ => false

def isCondBr : MInst Op → Bool
  | .condBr .. => true
  | _ => false

/-- The compare of the split block can be removed: the other block ends with the same
compare, and its branch reaches the split block. -/
def removableCompare (splitCmp predCmp predBr : MInst Op) (split : MirBlock) : Bool :=
  match splitCmp, predBr with
  | .cmpImm size lhs imm, .condBr _ trueLabel falseLabel =>
    (trueLabel.block? = some split || falseLabel.block? = some split) &&
      match predCmp with
      | .cmpImm predSize predLhs predImm =>
        predSize = size && predLhs = lhs && predImm.value = imm.value &&
          predImm.shift12 = imm.shift12
      | _ => false
  | _, _ => false

/-- The indices of a block whose instructions have not been removed. -/
def liveIndices (F : VCodeContainer Op) (b : MirBlock) : List Nat :=
  (List.range' (F.start b) (F.stop b - F.start b)).filter fun i => !isRemoved (F.inst i)

/-- The compare and the branch of a split block, and those of the block before it. -/
structure Fusion where
  cmp : Nat
  br : Nat
  pred : MirBlock
  predCmp : Nat
  predBr : Nat
deriving DecidableEq, Repr

def findFusion (F : VCodeContainer Op) (split : MirBlock) : Option Fusion :=
  match liveIndices F split, F.blockPreds split with
  | [cmp, br], [pred] =>
    match (liveIndices F pred).reverse with
    | predBr :: predCmp :: _ =>
      if isCondBr (F.inst br) ∧
          removableCompare (F.inst cmp) (F.inst predCmp) (F.inst predBr) split then
        some ⟨cmp, br, pred, predCmp, predBr⟩
      else none
    | _ => none
  | _, _ => none

/-- The function without the compare, and how many compares have gone. -/
def fuseBlock (F : VCodeContainer Op) (split : MirBlock) : VCodeContainer Op × Nat :=
  match findFusion F split with
  | some fusion => (F.setInst fusion.cmp .removed, 1)
  | none => (F, 0)

/-- The blocks below `count`, in order. -/
def runBlocks (F : VCodeContainer Op) (count : Nat) : VCodeContainer Op × Nat :=
  (List.range count).foldl (fun state split =>
    let (G, fused) := fuseBlock state.1 split
    (G, state.2 + fused)) (F, 0)

def run (F : VCodeContainer Op) : VCodeContainer Op × Nat := runBlocks F F.numBlocks

/-! ## What the match finds -/

section Find

variable {F : VCodeContainer Op} {split b : MirBlock} {fusion : Fusion} {c d : Nat}

/-- The last two instructions of a block that have not been removed. -/
structure EndsWith (F : VCodeContainer Op) (b : MirBlock) (c d : Nat) : Prop where
  first_le : F.start b ≤ c
  ordered : c < d
  lt_stop : d < F.stop b
  between : ∀ i, c < i → i < F.stop b → i ≠ d → F.inst i = .removed

theorem eq_removed {x : MInst Op} (gone : isRemoved x = true) : x = .removed := by
  cases x <;> first | rfl | cases gone

theorem mem_liveIndices {i : Nat} : i ∈ liveIndices F b ↔
    F.start b ≤ i ∧ i < F.stop b ∧ isRemoved (F.inst i) = false := by
  simp only [liveIndices, List.mem_filter, List.mem_range'_1, Bool.not_eq_true']
  constructor
  · rintro ⟨⟨low, high⟩, isLive⟩
    exact ⟨low, by omega, isLive⟩
  · rintro ⟨low, high, isLive⟩
    exact ⟨⟨low, by omega⟩, isLive⟩

theorem endsWith_of_liveIndices (before : List Nat) (isLive : liveIndices F b = before ++ [c, d]) :
    EndsWith F b c d := by
  have sorted : (liveIndices F b).Pairwise (· < ·) := (List.pairwise_lt_range' ..).filter _
  rw [isLive, List.pairwise_append] at sorted
  obtain ⟨-, ordered, apart⟩ := sorted
  have known : ∀ i, i ∈ before ++ [c, d] ↔ _ := fun i => isLive ▸ mem_liveIndices (F := F) (b := b)
  refine ⟨((known c).mp (by simp)).1, by simpa using ordered, ((known d).mp (by simp)).2.1, ?_⟩
  intro i after inside other
  by_contra live
  have listed : i ∈ before ++ [c, d] := by
    refine (known i).mpr ⟨by have := ((known c).mp (by simp)).1; omega, inside, ?_⟩
    by_contra gone
    exact live (eq_removed (by simpa using gone))
  rcases List.mem_append.mp listed with early | late
  · have := apart i early c (by simp)
    omega
  · simp only [List.mem_cons, List.not_mem_nil, or_false] at late
    omega

/-- The split block and the block before it. -/
structure Fuses (F : VCodeContainer Op) (split : MirBlock) (fusion : Fusion) (size : OperandSize)
    (lhs : Reg) (imm : Imm12) : Prop where
  preds : F.blockPreds split = [fusion.pred]
  cmp : F.inst fusion.cmp = .cmpImm size lhs imm
  predCmp : F.inst fusion.predCmp = .cmpImm size lhs imm
  br : isCondBr (F.inst fusion.br) = true
  predBr : isCondBr (F.inst fusion.predBr) = true
  splitEnds : EndsWith F split fusion.cmp fusion.br
  predEnds : EndsWith F fusion.pred fusion.predCmp fusion.predBr
  head : ∀ i, F.start split ≤ i → i < fusion.cmp → F.inst i = .removed

theorem eq_cmpImm_of_removable {splitCmp predCmp predBr : MInst Op}
    (removable : removableCompare splitCmp predCmp predBr split = true) :
    isCondBr predBr = true ∧ ∃ size lhs imm, splitCmp = .cmpImm size lhs imm ∧
      predCmp = .cmpImm size lhs imm := by
  unfold removableCompare at removable
  split at removable
  · next size lhs imm cond trueLabel falseLabel =>
      refine ⟨rfl, size, lhs, imm, rfl, ?_⟩
      simp only [Bool.and_eq_true] at removable
      obtain ⟨-, same⟩ := removable
      split at same
      · next predSize predLhs predImm =>
          simp only [Bool.and_eq_true, decide_eq_true_eq] at same
          obtain ⟨⟨⟨rfl, rfl⟩, value⟩, shift⟩ := same
          obtain ⟨value', shift', valid⟩ := predImm
          subst value shift
          rfl
      · cases same
  · cases removable

theorem findFusion_spec (found : findFusion F split = some fusion) :
    ∃ size lhs imm, Fuses F split fusion size lhs imm := by
  unfold findFusion at found
  split at found
  · next cmp br pred isLive isPred =>
      split at found
      · next predBr predCmp rest reversed =>
          split at found
          · next both =>
              obtain rfl := Option.some.inj found
              obtain ⟨isBranch, removable⟩ := both
              obtain ⟨predBranch, size, lhs, imm, isCmp, isPredCmp⟩ :=
                eq_cmpImm_of_removable removable
              have isPredLive : liveIndices F pred = rest.reverse ++ [predCmp, predBr] := by
                rw [← List.reverse_reverse (liveIndices F pred), reversed]
                simp
              refine ⟨size, lhs, imm, isPred, isCmp, isPredCmp, isBranch, predBranch,
                endsWith_of_liveIndices [] isLive, endsWith_of_liveIndices _ isPredLive, ?_⟩
              intro i low high
              have high : i < cmp := high
              by_contra live
              have ends := endsWith_of_liveIndices [] isLive
              have listed : i ∈ liveIndices F split := by
                refine mem_liveIndices.mpr ⟨low, ?_, ?_⟩
                · have := ends.ordered
                  have := ends.lt_stop
                  omega
                · by_contra gone
                  exact live (eq_removed (by simpa using gone))
              rw [isLive] at listed
              have := ends.ordered
              simp only [List.mem_cons, List.not_mem_nil, or_false] at listed
              omega
          · cases found
      · cases found
  · cases found

end Find

/-! ## Removing a compare keeps a verified function verified -/

section Removed

variable {F : VCodeContainer Op} {i : Nat} {size : OperandSize} {lhs : Reg} {imm : Imm12}

/-- The instruction at an index, up to the compare that is gone. -/
theorem inst_removed (F : VCodeContainer Op) (i k : Nat) :
    (F.setInst i .removed).inst k = F.inst k ∨
      k = i ∧ (F.setInst i .removed).inst k = .removed := by
  rw [inst_setInst]
  split
  · next here => exact .inr ⟨here.1, rfl⟩
  · exact .inl rfl

theorem defs_removed (isCmp : F.inst i = .cmpImm size lhs imm) (k : Nat) :
    ((F.setInst i .removed).inst k).defs = (F.inst k).defs := by
  rcases inst_removed F i k with same | ⟨rfl, gone⟩
  · rw [same]
  · rw [gone, isCmp]
    rfl

theorem verified_removed (verified : F.Verified) (isCmp : F.inst i = .cmpImm size lhs imm) :
    (F.setInst i .removed).Verified := by
  have tables := SameTables.setInst F i .removed
  have terms : ∀ k, ((F.setInst i .removed).inst k).isTerm = (F.inst k).isTerm := by
    intro k
    rcases inst_removed F i k with same | ⟨rfl, gone⟩
    · rw [same]
    · rw [gone, isCmp]
      rfl
  have uses : ∀ k, ∀ r ∈ ((F.setInst i .removed).inst k).uses, r ∈ (F.inst k).uses := by
    intro k r used
    rcases inst_removed F i k with same | ⟨rfl, gone⟩
    · rwa [same] at used
    · rw [gone] at used
      cases used
  have dominating : ∀ {r b k}, F.DominatingDef r b k →
    (F.setInst i .removed).DominatingDef r b k := by
    rintro r b k (isParam | ⟨d, j, inside, isDef, before, dominates⟩)
    · exact .inl isParam
    · exact .inr ⟨d, j, inside, by rwa [defs_removed isCmp], before, dominates⟩
  have sameDefs : (F.setInst i .removed).allDefs = F.allDefs := by
    have defs : (F.insts.set i .removed).map MInst.defs = F.insts.map MInst.defs := by
      refine List.ext_getElem (by simp) fun k _ inside => ?_
      rw [List.length_map] at inside
      have at_k := defs_removed isCmp k
      simp only [inst, setInst, List.getD_eq_getElem?_getD, List.getElem?_set] at at_k
      simp only [List.getElem_map, List.getElem_set]
      split
      · next here =>
          subst here
          simpa [inside] using at_k
      · rfl
    simp only [allDefs, List.flatMap_def, setInst, defs]
  refine { verified.of_sameTables tables terms with
    succs := fun b block => ?_
    preds := verified.preds
    predSuccs := verified.predSuccs
    arity := verified.arity
    entry := verified.entry
    unique := sameDefs ▸ verified.unique
    virtualParams := verified.virtualParams
    uses := fun b k inside r used isVirtual =>
      dominating (verified.uses b k inside r (uses k r used) isVirtual)
    edgeUses := fun b k block r isArg => dominating (verified.edgeUses b k block r isArg)
    compares := fun k size' lhs' imm' isCmp' => ?_ }
  · have targets : ∀ k, ((F.setInst i .removed).inst k).targets = (F.inst k).targets := by
      intro k
      rcases inst_removed F i k with same | ⟨rfl, gone⟩
      · rw [same]
      · rw [gone, isCmp]
        rfl
    rw [targets]
    exact verified.succs b block
  · rcases inst_removed F i k with same | ⟨rfl, gone⟩
    · exact verified.compares k size' lhs' imm' (same ▸ isCmp')
    · rw [gone] at isCmp'
      cases isCmp'

end Removed

/-! ## The flags are there -/

section Flags

variable {M : Target Op World} {F : VCodeContainer Op} {split : MirBlock} {fusion : Fusion}
  {size : OperandSize} {lhs : Reg} {imm : Imm12}

variable {b : MirBlock}

theorem isTerm_of_isCondBr {x : MInst Op} (isBranch : isCondBr x = true) : x.isTerm = true := by
  cases x <;> first | rfl | cases isBranch

theorem EndsWith.eq_last {c d : Nat} (ends : EndsWith F b c d) (verified : F.Verified)
    (block : b < F.numBlocks) (isBranch : isCondBr (F.inst d) = true) : d = F.stop b - 1 := by
  have := ends.first_le
  have := ends.ordered
  exact verified.eq_last ⟨block, by omega, ends.lt_stop⟩ (isTerm_of_isCondBr isBranch)

theorem reachable_lt (verified : F.Verified) (reached : Lib.Reachable F.Edge 0 b) :
    b < F.numBlocks := by
  induction reached with
  | refl => exact verified.entry.1
  | tail _ edge ih => exact (verified.preds _ _ ih edge).1

/-- A block entered from one block only, and not the first, does not dominate it. -/
theorem reach_avoiding {pred : MirBlock} (notEntry : split ≠ 0)
    (onlyPred : ∀ {b}, Lib.Reachable F.Edge 0 b → F.Edge b split → b = pred)
    (reached : Lib.Reachable F.Edge 0 b) :
    Lib.ReachAvoiding F.Edge split 0 b ∨ Lib.ReachAvoiding F.Edge split 0 pred := by
  induction reached with
  | refl => exact .inl ⟨notEntry.symm, .refl⟩
  | @tail b c before edge ih =>
    rcases ih with avoids | avoids
    · by_cases here : c = split
      · subst here
        exact .inr (onlyPred before edge ▸ avoids)
      · exact .inl ⟨avoids.1, avoids.2.tail ⟨edge, here⟩⟩
    · exact .inr avoids

/-- What holds at every state of a run: behind the compare of the block before, and in the
split block, the flags are those of the compare. -/
structure Carried (F : VCodeContainer Op) (split : MirBlock) (fusion : Fusion) (size : OperandSize)
    (lhs : Reg) (imm : Imm12) (s : State World) : Prop where
  reached : Lib.Reachable F.Edge 0 s.block
  inside : F.InBlock s.block s.pc
  behind : s.block = fusion.pred → fusion.predCmp < s.pc →
    s.flags = .ofSub ((s.regs lhs).read size) (imm.bits size)
  ahead : s.block = split → s.flags = .ofSub ((s.regs lhs).read size) (imm.bits size)

namespace Fuses

variable (fuses : Fuses F split fusion size lhs imm) (verified : F.Verified)
include fuses verified

variable {s t : State World}

theorem pred_lt (block : split < F.numBlocks) : fusion.pred < F.numBlocks :=
  (verified.predSuccs split fusion.pred block (by simp [fuses.preds])).1

theorem onlyPred (b : MirBlock) (known : b < F.numBlocks) (edge : F.Edge b split) :
    b = fusion.pred := by
  have listed := (verified.preds b split known edge).2
  rw [fuses.preds] at listed
  exact List.mem_singleton.mp listed

/-- The compared register is defined before the compare, so the split block is not the
first one. -/
theorem notEntry (block : split < F.numBlocks) : split ≠ 0 := by
  rintro rfl
  have isVirtual := verified.compares _ _ _ _ fuses.cmp
  have ordered := fuses.splitEnds.ordered
  have inside : F.InBlock 0 fusion.cmp :=
    ⟨block, fuses.splitEnds.first_le, ordered.trans fuses.splitEnds.lt_stop⟩
  rcases verified.uses 0 _ inside lhs (by simp [fuses.cmp, MInst.uses]) isVirtual with
    ⟨d, isParam, dominates⟩ | ⟨d, j, place, isDef, early, dominates⟩
  · rw [dominates.eq_root, verified.entry.2.2] at isParam
    cases isParam
  · have isEntry := dominates.eq_root
    subst isEntry
    rw [fuses.head j place.2.1 (early rfl)] at isDef
    cases isDef

/-- The edge into the split block does not assign the compared register. -/
theorem notMem_params (block : split < F.numBlocks)
    (reached : Lib.Reachable F.Edge 0 fusion.pred) : lhs ∉ F.blockParams split := by
  intro isParam
  have isVirtual := verified.compares _ _ _ _ fuses.cmp
  have params : ∀ {b}, lhs ∈ F.blockParams b → lhs ∈ F.params.flatten ∧ b = split := by
    intro b here
    have listed : ∀ {c}, lhs ∈ F.blockParams c → ∃ list, F.params[c]? = some list ∧ lhs ∈ list := by
      intro c member
      rw [blockParams, List.getD_eq_getElem?_getD] at member
      cases at_c : F.params[c]? with
      | none => simp [at_c] at member
      | some list => exact ⟨list, rfl, by simpa [at_c] using member⟩
    obtain ⟨list, at_b, member⟩ := listed here
    obtain ⟨list', at_split, member'⟩ := listed isParam
    refine ⟨List.mem_flatten.mpr ⟨list, List.mem_of_getElem? at_b, member⟩, ?_⟩
    have apart := (List.nodup_flatten.mp (List.nodup_append.mp verified.unique).1).2
    rw [List.pairwise_iff_getElem] at apart
    obtain ⟨inside, rfl⟩ := List.getElem?_eq_some_iff.mp at_b
    obtain ⟨inside', rfl⟩ := List.getElem?_eq_some_iff.mp at_split
    by_contra differ
    rcases Nat.lt_or_gt_of_ne differ with lt | lt
    · exact apart _ _ inside inside' lt member member'
    · exact apart _ _ inside' inside lt member' member
  have known := fuses.pred_lt verified block
  have ordered := fuses.predEnds.ordered
  have place : F.InBlock fusion.pred fusion.predCmp :=
    ⟨known, fuses.predEnds.first_le, ordered.trans fuses.predEnds.lt_stop⟩
  rcases verified.uses _ _ place lhs (by simp [fuses.predCmp, MInst.uses]) isVirtual with
    ⟨d, isParam', dominates⟩ | ⟨d, j, -, isDef, -⟩
  · obtain rfl := (params isParam').2
    have onlyPred : ∀ {b}, Lib.Reachable F.Edge 0 b → F.Edge b d → b = fusion.pred :=
      fun before edge =>
      fuses.onlyPred verified _ (reachable_lt verified before) edge
    rcases reach_avoiding (fuses.notEntry verified block) onlyPred reached with avoids | avoids
    · exact dominates avoids
    · exact dominates avoids
  · exact (PeepholeCombine.def_unique verified isVirtual isDef).1 (params isParam).1

theorem carried_initial (block : split < F.numBlocks) (ρ : Reg → Value) (f : Flags) (w : World) :
    Carried F split fusion size lhs imm (F.initial ρ f w) := by
  refine ⟨.refl, ⟨verified.entry.1, Nat.le_refl _, (verified.bounded 0 verified.entry.1).1⟩, ?_, ?_⟩
  · intro isPred behind
    have first := fuses.predEnds.first_le
    have isPred : 0 = fusion.pred := isPred
    rw [← isPred] at first
    exact absurd behind (Nat.not_lt_of_le first)
  · exact fun isSplit => absurd isSplit.symm (fuses.notEntry verified block)

/-- An instruction of the split block, or behind the compare of the block before it, that
is not the last one leaves the flags of the compare. -/
theorem carried_plain (values : List Value) (w : World)
    (carried : Carried F split fusion size lhs imm s) (plain : (F.inst s.pc).isTerm = false) :
    Carried F split fusion size lhs imm ⟨s.block, s.pc + 1, assign s.regs (F.inst s.pc).defs values,
      (F.inst s.pc).flagsAfter M s.regs s.flags s.world, w⟩ := by
  have compares : F.inst s.pc = .cmpImm size lhs imm →
      (F.inst s.pc).flagsAfter M s.regs s.flags s.world =
        .ofSub ((assign s.regs (F.inst s.pc).defs values lhs).read size) (imm.bits size) := by
    intro isCmp
    rw [isCmp]
    rfl
  have keeps : F.inst s.pc = .removed →
      s.flags = .ofSub ((s.regs lhs).read size) (imm.bits size) →
      (F.inst s.pc).flagsAfter M s.regs s.flags s.world =
        .ofSub ((assign s.regs (F.inst s.pc).defs values lhs).read size) (imm.bits size) := by
    intro gone flags
    rw [gone]
    exact flags
  have inside := carried.inside
  refine ⟨carried.reached, verified.inBlock_succ inside plain, fun isPred behind => ?_,
    fun isSplit => ?_⟩
  · have isPred : s.block = fusion.pred := isPred
    have behind : fusion.predCmp < s.pc + 1 := behind
    by_cases here : s.pc = fusion.predCmp
    · exact compares (here ▸ fuses.predCmp)
    · refine keeps (fuses.predEnds.between _ (by omega) (isPred ▸ inside.2.2) ?_)
        (carried.behind isPred (by omega))
      intro isBranch
      rw [isBranch, isTerm_of_isCondBr fuses.predBr] at plain
      cases plain
  · have isSplit : s.block = split := isSplit
    have flags := carried.ahead isSplit
    rcases Nat.lt_trichotomy s.pc fusion.cmp with early | here | late
    · exact keeps (fuses.head _ (isSplit ▸ inside.2.1) early) flags
    · exact compares (here ▸ fuses.cmp)
    · refine keeps (fuses.splitEnds.between _ late (isSplit ▸ inside.2.2) ?_) flags
      intro isBranch
      rw [isBranch, isTerm_of_isCondBr fuses.br] at plain
      cases plain

/-- A branch to the split block comes from the one block before it, behind its compare. -/
theorem carried_goto {target : Label × Nat} (block : split < F.numBlocks)
    (carried : Carried F split fusion size lhs imm s) (term : (F.inst s.pc).isTerm = true)
    (taken : (F.inst s.pc).branch s.regs s.flags = some target) (went : F.goto s target = some t) :
    Carried F split fusion size lhs imm t := by
  obtain ⟨label, k⟩ := target
  have inside := carried.inside
  cases label with
  | external symbol => cases went
  | block c =>
    obtain rfl := Option.some.inj went
    have last := verified.eq_last inside term
    have edge : F.Edge s.block c := by
      have target := MInst.targets_of_branch taken
      rw [last, verified.succs s.block inside.1, List.getElem?_map] at target
      obtain ⟨c', isSucc, same⟩ := Option.map_eq_some_iff.mp target
      cases same
      exact List.mem_of_getElem? isSucc
    have known := (verified.preds _ _ inside.1 edge).1
    refine ⟨carried.reached.tail edge, ⟨known, Nat.le_refl _, (verified.bounded c known).1⟩,
      fun isPred behind => ?_, fun isSplit => ?_⟩
    · have isPred : c = fusion.pred := isPred
      have behind : fusion.predCmp < F.start c := behind
      have first := fuses.predEnds.first_le
      rw [isPred] at behind
      omega
    · have isSplit : c = split := isSplit
      subst isSplit
      have isPred := fuses.onlyPred verified s.block inside.1 edge
      have ends := fuses.predEnds.eq_last verified (isPred ▸ inside.1) fuses.predBr
      have ordered := fuses.predEnds.ordered
      rw [isPred] at last
      have notParam := fuses.notMem_params verified block (isPred ▸ carried.reached)
      have same := assign_of_not_mem (ρ := s.regs) notParam
        ((F.branchBlockparams s.block k).map s.regs)
      have flags := carried.behind isPred (by omega)
      simp only [same]
      exact flags

section

variable (block : split < F.numBlocks)
include block

theorem carried_step (carried : Carried F split fusion size lhs imm s)
    (stepped : F.step M s = some t) : Carried F split fusion size lhs imm t := by
  simp only [step] at stepped
  split at stepped
  · split at stepped
    · next term =>
        obtain ⟨target, taken, went⟩ := Option.bind_eq_some_iff.mp stepped
        exact fuses.carried_goto verified block carried term taken went
    · next plain =>
        obtain ⟨⟨values, w⟩, -, rfl⟩ := Option.map_eq_some_iff.mp stepped
        exact fuses.carried_plain verified values w carried (by simpa using plain)
  · cases stepped

/-- Where the flags are those of the compare the compare does nothing. -/
theorem step_removed (carried : Carried F split fusion size lhs imm s) :
    (F.setInst fusion.cmp .removed).step M s = F.step M s := by
  by_cases here : s.pc = fusion.cmp
  · have ordered := fuses.splitEnds.ordered
    have place : F.InBlock split s.pc := by
      rw [here]
      exact ⟨block, fuses.splitEnds.first_le, ordered.trans fuses.splitEnds.lt_stop⟩
    have isSplit := verified.disjoint _ _ _ carried.inside place
    have gone : (F.setInst fusion.cmp .removed).inst s.pc = .removed := by
      rw [inst_setInst, if_pos ⟨here, here ▸ verified.inBlock_lt place⟩]
    have isCmp : F.inst s.pc = .cmpImm size lhs imm := here ▸ fuses.cmp
    have before : s.pc < F.stop s.block := carried.inside.2.2
    simp only [step, gone, isCmp, stop_setInst, if_pos before, MInst.isTerm, Bool.false_eq_true,
      if_false, MInst.results, MInst.defs, MInst.flagsAfter, carried.ahead isSplit, Option.map_some]
  · have same : (F.setInst fusion.cmp .removed).inst s.pc = F.inst s.pc := by
      rw [inst_setInst, if_neg fun both => here both.1]
    simp only [step, same, stop_setInst]
    rfl

theorem carried_run (ρ : Reg → Value) (f : Flags) (w : World) {count : Nat}
    (ran : F.run M count (F.initial ρ f w) = some s) : Carried F split fusion size lhs imm s := by
  induction count generalizing s with
  | zero =>
    obtain rfl := Option.some.inj ran
    exact fuses.carried_initial verified block ρ f w
  | succ count ih =>
    obtain ⟨before, ran, stepped⟩ := Option.bind_eq_some_iff.mp ran
    exact fuses.carried_step verified block (ih ran) stepped

/-- Without the compare the function runs as before. -/
theorem run_removed (ρ : Reg → Value) (f : Flags) (w : World) (count : Nat) :
    (F.setInst fusion.cmp .removed).run M count (F.initial ρ f w) =
      F.run M count (F.initial ρ f w) := by
  induction count with
  | zero => rfl
  | succ count ih =>
    simp only [VCodeContainer.run, ih]
    cases ran : F.run M count (F.initial ρ f w) with
    | none => rfl
    | some s =>
      have carried := fuses.carried_run verified block ρ f w ran
      exact fuses.step_removed verified block carried

end

end Fuses

end Flags

/-! ## The whole pass -/

section Whole

variable {F : VCodeContainer Op} {split : MirBlock} {fusion : Fusion}

theorem runBlocks_succ (F : VCodeContainer Op) (count : Nat) : (runBlocks F (count + 1)).1 =
    (fuseBlock (runBlocks F count).1 count).1 := by
  simp only [runBlocks, List.range_succ, List.foldl_append, List.foldl_cons, List.foldl_nil]

theorem fuseBlock_of_find (found : findFusion F split = some fusion) :
    (fuseBlock F split).1 = F.setInst fusion.cmp .removed := by
  simp [fuseBlock, found]

theorem fuseBlock_of_none (none : findFusion F split = none) : (fuseBlock F split).1 = F := by
  simp [fuseBlock, none]

theorem sameTables_fuseBlock (F : VCodeContainer Op) (split : MirBlock) :
    SameTables F (fuseBlock F split).1 := by
  cases found : findFusion F split with
  | none =>
    rw [fuseBlock_of_none found]
    exact SameTables.refl F
  | some fusion =>
    rw [fuseBlock_of_find found]
    exact SameTables.setInst F _ _

theorem sameTables_runBlocks (F : VCodeContainer Op) (count : Nat) :
    SameTables F (runBlocks F count).1 := by
  induction count with
  | zero => exact SameTables.refl F
  | succ count ih =>
    rw [runBlocks_succ]
    exact ih.trans (sameTables_fuseBlock _ count)

/-- After every block the function is verified and runs as at the beginning. -/
theorem runBlocks_run (verified : F.Verified) {count : Nat} (known : count ≤ F.numBlocks) :
    (runBlocks F count).1.Verified ∧ ∀ (M : Target Op World) ρ f w n,
      (runBlocks F count).1.run M n ((runBlocks F count).1.initial ρ f w) =
        F.run M n (F.initial ρ f w) := by
  induction count with
  | zero => exact ⟨verified, fun _ _ _ _ _ => rfl⟩
  | succ count ih =>
    obtain ⟨verified', runs⟩ := ih (Nat.le_of_succ_le known)
    have block : count < (runBlocks F count).1.numBlocks := by
      rw [(sameTables_runBlocks F count).numBlocks]
      exact known
    rw [runBlocks_succ]
    cases found : findFusion (runBlocks F count).1 count with
    | none =>
      rw [fuseBlock_of_none found]
      exact ⟨verified', runs⟩
    | some fusion =>
      obtain ⟨size, lhs, imm, fuses⟩ := findFusion_spec found
      rw [fuseBlock_of_find found]
      refine ⟨verified_removed verified' fuses.cmp, fun M ρ f w n => ?_⟩
      rw [← runs]
      exact fuses.run_removed verified' block ρ f w n

/-- A later stage has the instructions of an earlier one, but for the compares of blocks
fused in between. -/
theorem runBlocks_inst (F : VCodeContainer Op) {count count' : Nat} (le : count ≤ count')
    (k : Nat) :
    (runBlocks F count').1.inst k = (runBlocks F count).1.inst k ∨
      (runBlocks F count').1.inst k = .removed ∧ ∃ b fusion, count ≤ b ∧ b < count' ∧
        findFusion (runBlocks F b).1 b = some fusion ∧ fusion.cmp = k := by
  induction le with
  | refl => exact .inl rfl
  | @step count' le ih =>
    rw [runBlocks_succ]
    cases found : findFusion (runBlocks F count').1 count' with
    | none =>
      rw [fuseBlock_of_none found]
      refine ih.imp_right fun ⟨gone, b, fusion, low, high, rest⟩ => ?_
      exact ⟨gone, b, fusion, low, Nat.lt_succ_of_lt high, rest⟩
    | some fusion =>
      rw [fuseBlock_of_find found]
      rcases inst_removed (runBlocks F count').1 fusion.cmp k with same | ⟨isCmp, gone⟩
      · rw [same]
        refine ih.imp_right fun ⟨gone, b, fusion', low, high, rest⟩ => ?_
        exact ⟨gone, b, fusion', low, Nat.lt_succ_of_lt high, rest⟩
      · exact .inr ⟨gone, count', fusion, le, Nat.lt_succ_self _, found, isCmp.symm⟩

/-- The block loses its compare when its turn comes. -/
structure Fused (F : VCodeContainer Op) (split : MirBlock) (fusion : Fusion) (size : OperandSize)
    (lhs : Reg) (imm : Imm12) : Prop where
  block : split < F.numBlocks
  found : findFusion (runBlocks F split).1 split = some fusion
  fuses : Fuses (runBlocks F split).1 split fusion size lhs imm

theorem Fused.of_find (block : split < F.numBlocks)
    (found : findFusion (runBlocks F split).1 split = some fusion) :
    ∃ size lhs imm, Fused F split fusion size lhs imm := by
  obtain ⟨size, lhs, imm, fuses⟩ := findFusion_spec found
  exact ⟨size, lhs, imm, block, found, fuses⟩

variable {size : OperandSize} {lhs : Reg} {imm : Imm12}

/-- The compares are those of the function the pass starts with. -/
theorem Fused.original (fused : Fused F split fusion size lhs imm) :
    F.inst fusion.cmp = .cmpImm size lhs imm ∧ F.inst fusion.predCmp = .cmpImm size lhs imm := by
  have original : ∀ {k}, (runBlocks F split).1.inst k = .cmpImm size lhs imm →
      F.inst k = .cmpImm size lhs imm := by
    intro k isCmp
    rcases runBlocks_inst F (Nat.zero_le split) k with same | ⟨gone, -⟩
    · exact same ▸ isCmp
    · rw [gone] at isCmp
      cases isCmp
  exact ⟨original fused.fuses.cmp, original fused.fuses.predCmp⟩

/-- In every state of a run that stands in a fused block the flags are those of its
compare. -/
theorem Fused.flags (fused : Fused F split fusion size lhs imm) (verified : F.Verified)
    {M : Target Op World} {ρ : Reg → Value} {f : Flags} {w : World} {n : Nat} {s : State World}
    (ran : (run F).1.run M n ((run F).1.initial ρ f w) = some s) (here : s.block = split) :
    s.flags = .ofSub ((s.regs lhs).read size) (imm.bits size) := by
  obtain ⟨verified', runs⟩ := @runBlocks_run Op World F verified _ (Nat.le_of_lt fused.block)
  obtain ⟨-, runs'⟩ := @runBlocks_run Op World F verified _ (Nat.le_refl F.numBlocks)
  have block : split < (runBlocks F split).1.numBlocks := by
    rw [(sameTables_runBlocks F split).numBlocks]
    exact fused.block
  rw [run, runs', ← runs] at ran
  exact (fused.fuses.carried_run verified' block ρ f w ran).ahead here

end Whole

end AnonCompiler.Mir.ChainFusion
