import AnonCompiler.Lib.Supply
import AnonCompiler.Mir.DeadCodeElim

/-!
# The dead machine instructions are the least set

The instructions supply each other with registers, and the pass drops idle ones.
`Progress` describes a state by the set of instructions dropped so far: the counters hold
the uses that are left, only idle instructions have been dropped, and every instruction
that is dead by its counters is on the worklist.  `progress_visit` says that taking any
index keeps this and leaves less work, so every order of the worklist ends, and ends with
the same set.
-/

set_option autoImplicit false

namespace AnonCompiler.Mir.DeadCodeElim

open Lib

variable {insts : List Inst} {extraUses : List Reg}

/-! ## Instructions as a supply of registers -/

variable (insts extraUses) in
/-- The whitelisted instructions with definitions, all of them virtual, are candidates. -/
def supply : Supply Nat Reg where
  items := Finset.range insts.length
  candidate i := ∃ x, insts[i]? = some x ∧ isDceRemovable x = true ∧ x.defs ≠ [] ∧
    ∀ r ∈ x.defs, r.isVirtual = true
  defs i := (insts[i]?).elim [] MInst.defs
  uses i := (insts[i]?).elim [] MInst.uses
  wanted := extraUses

variable {i : Nat} {S : Set Nat} {code : List Inst} {r : Reg} {x : Inst} {counts : Reg → Option Nat}
  {F : VCodeContainer OtherForm}

theorem mem_items {i : Nat} : i ∈ (supply insts extraUses).items ↔ ∃ x, insts[i]? = some x := by
  simp [supply, ← Option.isSome_iff_exists]

theorem closed_iff : (supply insts extraUses).Closed S ↔ Closed insts extraUses S := by
  constructor
  · intro closed i x isInst removable defs unneeded
    refine closed i (mem_items.mpr ⟨x, isInst⟩)
      ⟨x, isInst, removable, defs, fun r isDef => (unneeded r isDef).1⟩ fun r isDef => ?_
    have isDef : r ∈ x.defs := by simpa [supply, isInst] using isDef
    refine ⟨(unneeded r isDef).2.1, fun j item isUse => ?_⟩
    obtain ⟨y, isUser⟩ := mem_items.mp item
    exact (unneeded r isDef).2.2 j y isUser (by simpa [supply, isUser] using isUse)
  · rintro closed i - ⟨x, isInst, removable, defs, isVirtual⟩ unneeded
    refine closed i x isInst removable defs fun r isDef => ?_
    have isDef' : r ∈ (supply insts extraUses).defs i := by simpa [supply, isInst] using isDef
    refine ⟨isVirtual r isDef, (unneeded r isDef').1, fun j y isUser isUse => ?_⟩
    exact (unneeded r isDef').2 j (mem_items.mpr ⟨y, isUser⟩)
      (by simpa [supply, isUser] using isUse)

theorem isLeast_iff : IsLeast {S | (supply insts extraUses).Closed S} S ↔
    IsLeast {S | Closed insts extraUses S} S := by
  simp only [closed_iff]

theorem sum_count_range (code : List Inst) (r : Reg) :
    (code.flatMap MInst.uses).count r =
      ∑ j ∈ Finset.range code.length, ((code[j]?).elim [] MInst.uses).count r := by
  induction code with
  | nil => simp
  | cons x code ih =>
    rw [List.flatMap_cons, List.count_append, ih, List.length_cons, Finset.sum_range_succ']
    simp only [List.getElem?_cons_succ, List.getElem?_cons_zero, Option.elim_some]
    omega

/-- With the dropped instructions removed, the uses that are left are the remaining ones. -/
theorem usesLeft_eq {dropped : Finset Nat} {code : List Inst}
    (isCode : ∀ i, code[i]? = (insts[i]?).map fun x => if i ∈ dropped then .removed else x)
    (r : Reg) : usesLeft extraUses code r = (supply insts extraUses).remaining dropped r := by
  have length : code.length = insts.length := by
    apply Nat.le_antisymm <;> refine le_of_not_gt fun less => ?_
    · have := isCode insts.length
      simp [less] at this
    · have := isCode code.length
      simp [less] at this
  have kept : ∀ j ∈ Finset.range insts.length, ((code[j]?).elim [] MInst.uses).count r =
      if j ∈ dropped then 0 else ((insts[j]?).elim [] MInst.uses).count r := by
    intro j inside
    obtain ⟨x, isInst⟩ := (@mem_items insts extraUses j).mp inside
    rw [isCode, isInst]
    by_cases gone : j ∈ dropped <;> simp [gone, MInst.uses]
  rw [usesLeft, List.count_append, sum_count_range, length, Finset.sum_congr rfl kept,
    Supply.remaining]
  congr 1
  rw [Finset.sdiff_eq_filter, Finset.sum_filter]
  exact Finset.sum_congr rfl fun j _ => by by_cases gone : j ∈ dropped <;> simp [gone, supply]

/-! ## The tables -/

theorem getD_countUse (useCounts : Reg → Option Nat) (reg r : Reg) :
    (countUse useCounts reg r).getD 0 = (useCounts r).getD 0 + [reg].count r := by
  unfold countUse
  by_cases same : reg = r
  · subst same
    simp
  · simp [Function.update_of_ne (Ne.symm same), List.count_cons_of_ne same]

theorem getD_foldl_countUse (uses : List Reg) (useCounts : Reg → Option Nat) (r : Reg) :
    (uses.foldl countUse useCounts r).getD 0 = (useCounts r).getD 0 + uses.count r := by
  induction uses generalizing useCounts with
  | nil => simp
  | cons reg uses ih =>
    rw [List.foldl_cons, ih, getD_countUse, Nat.add_assoc, ← List.count_append]
    rfl

theorem foldl_update_site (defs : List Reg) (defSite : Reg → Option Nat) (i : Nat) (r : Reg) :
    defs.foldl (fun site d => Function.update site d (some i)) defSite r =
      if r ∈ defs then some i else defSite r := by
  induction defs generalizing defSite with
  | nil => simp
  | cons d defs ih =>
    rw [List.foldl_cons, ih]
    by_cases same : r = d
    · subst same
      by_cases later : r ∈ defs <;> simp [later]
    · simp [same]

theorem collect_concat (code : List Inst) (x : Inst) :
    collect (code ++ [x]) extraUses = (collect code extraUses).visitInst x code.length := by
  simp [collect, List.zipIdx_append]

theorem collect_infos (code : List Inst) : (collect code extraUses).infos = code.map infoOf := by
  induction code using List.reverseRecOn with
  | nil => rfl
  | append_singleton code x ih =>
    rw [collect_concat, List.map_append, ← ih]
    rfl

theorem count_filter_isVirtual (isVirtual : r.isVirtual = true) (regs : List Reg) :
    (regs.filter Reg.isVirtual).count r = regs.count r := List.count_filter isVirtual

/-- At the beginning the counters hold all uses. -/
theorem collect_useCounts (code : List Inst) (isVirtual : r.isVirtual = true) :
    ((collect code extraUses).useCounts r).getD 0 = usesLeft extraUses code r := by
  induction code using List.reverseRecOn with
  | nil =>
    rw [show (collect [] extraUses).useCounts = (extraUses.filter Reg.isVirtual).foldl countUse
      fun _ => none from rfl, getD_foldl_countUse, count_filter_isVirtual isVirtual]
    simp [usesLeft]
  | append_singleton code x ih =>
    rw [collect_concat, Tables.visitInst, getD_foldl_countUse, ih, infoOf,
      count_filter_isVirtual isVirtual]
    simp [usesLeft, Nat.add_assoc]

theorem defSite_concat (code : List Inst) (x : Inst) (r : Reg) :
    (collect (code ++ [x]) extraUses).defSite r =
      if r ∈ x.defs ∧ r.isVirtual = true then some code.length
      else (collect code extraUses).defSite r := by
  rw [collect_concat]
  refine (foldl_update_site _ _ _ _).trans ?_
  simp only [List.mem_filter]

theorem defSite_sound (site : (collect code extraUses).defSite r = some i) :
    r.isVirtual = true ∧ ∃ x, code[i]? = some x ∧ r ∈ x.defs := by
  induction code using List.reverseRecOn with
  | nil => cases site
  | append_singleton code x ih =>
    rw [defSite_concat] at site
    split at site
    · next here =>
        cases site
        exact ⟨here.2, x, by simp, here.1⟩
    · obtain ⟨isVirtual, y, isInst, isDef⟩ := ih site
      have bound : i < code.length := (List.getElem?_eq_some_iff.mp isInst).1
      exact ⟨isVirtual, y, by rw [List.getElem?_append_left bound, isInst], isDef⟩

theorem defSite_isSome {code : List Inst} {r : Reg} {x : Inst} (isInst : x ∈ code)
    (isVirtual : r.isVirtual = true) (isDef : r ∈ x.defs) :
    ((collect code extraUses).defSite r).isSome := by
  induction code using List.reverseRecOn with
  | nil => cases isInst
  | append_singleton code y ih =>
    rw [defSite_concat]
    split
    · rfl
    · next notHere =>
        rcases List.mem_append.mp isInst with before | last
        · exact ih before
        · obtain rfl : x = y := by simpa using last
          exact absurd ⟨isDef, isVirtual⟩ notHere

/-- The one definition of a virtual register is found. -/
theorem defSite_complete (single : SingleDef code) (isInst : code[i]? = some x)
    (isVirtual : r.isVirtual = true) (isDef : r ∈ x.defs) :
    (collect code extraUses).defSite r = some i := by
  obtain ⟨j, site⟩ := Option.isSome_iff_exists.mp
    (@defSite_isSome extraUses code r x (List.mem_of_getElem? isInst) isVirtual isDef)
  obtain ⟨-, y, isInst', isDef'⟩ := defSite_sound site
  rw [site, single i j x y isInst isInst' r isVirtual isDef isDef']

/-! ## One removal -/

/-- Taking uses away that are there does not fail, and puts exactly the definitions on the
worklist whose registers have no use left. -/
theorem dropUses_spec (defSite : Reg → Option Nat) (uses : List Reg) (counts : Reg → Option Nat)
    (worklist : List Nat) (enough : ∀ r, uses.count r ≤ (counts r).getD 0) :
    ∃ counts' pushed, dropUses defSite uses (counts, worklist) =
      some (counts', worklist ++ pushed) ∧
      (∀ r, (counts' r).getD 0 + uses.count r = (counts r).getD 0) ∧
      pushed.length ≤ uses.length ∧
      (∀ i ∈ pushed, ∃ r ∈ uses, defSite r = some i) ∧
      ∀ r ∈ uses, (counts' r).getD 0 = 0 → ∀ i, defSite r = some i → i ∈ pushed := by
  induction uses generalizing counts worklist with
  | nil => exact ⟨counts, [], by simp [dropUses], by simp, by simp, by simp, by simp⟩
  | cons used uses ih =>
    obtain ⟨count, isCount⟩ : ∃ count, counts used = some (count + 1) := by
      have positive := enough used
      rw [List.count_cons_self] at positive
      match known : counts used with
      | none | some 0 => simp [known] at positive
      | some (count + 1) => exact ⟨count, rfl⟩
    let counts₁ := Function.update counts used (some count)
    have drop : ∀ r, (counts₁ r).getD 0 + [used].count r = (counts r).getD 0 := by
      intro r
      by_cases same : used = r
      · subst same
        simp [counts₁, isCount]
      · simp [counts₁, Function.update_of_ne (Ne.symm same), List.count_cons_of_ne same]
    have split : ∀ r, (used :: uses).count r = uses.count r + [used].count r := fun r => by
      rw [← List.singleton_append, List.count_append, Nat.add_comm]
    obtain ⟨counts', pushed, run, left, few, sound, complete⟩ := ih counts₁
      (if count = 0 then worklist ++ (defSite used).toList else worklist) fun r => by
        have := enough r
        have := drop r
        have := split r
        omega
    let first := if count = 0 then (defSite used).toList else []
    have isFirst : (if count = 0 then worklist ++ (defSite used).toList else worklist) =
        worklist ++ first := by
      by_cases last : count = 0 <;> simp [first, last]
    have short : first.length ≤ 1 := by
      by_cases last : count = 0 <;> cases site : defSite used <;> simp [first, last, site]
    refine ⟨counts', first ++ pushed, ?_, fun r => ?_, ?_, fun i inside => ?_,
      fun r isUse unused i site => ?_⟩
    · have turn : dropUse defSite (counts, worklist) used =
          some (counts₁, worklist ++ first) := by
        simp only [dropUse, isCount, isFirst, counts₁]
      rw [isFirst] at run
      rw [dropUses, List.foldlM_cons, turn, ← List.append_assoc]
      exact run
    · have := left r
      have := drop r
      have := split r
      omega
    · rw [List.length_append, List.length_cons]
      omega
    · rcases List.mem_append.mp inside with now | later
      · refine ⟨used, List.mem_cons_self, ?_⟩
        by_cases last : count = 0 <;> simp [first, last] at now
        exact now
      · obtain ⟨r, isUse, site⟩ := sound i later
        exact ⟨r, List.mem_cons_of_mem _ isUse, site⟩
    · by_cases again : r ∈ uses
      · exact List.mem_append_right _ (complete r again unused i site)
      · -- the last use of the register has been the first of the list
        obtain rfl : r = used := (List.mem_cons.mp isUse).resolve_right again
        have none : count = 0 := by
          have := left r
          rw [unused, List.count_eq_zero_of_not_mem again] at this
          simpa [counts₁] using this.symm
        exact List.mem_append_left _ (by simp [first, none, site])

/-! ## Runs of the worklist -/

/-- The table of an instruction that has been dropped has lost its uses. -/
def takenInfo (dropped : Finset Nat) (i : Nat) (x : Inst) : InstInfo :=
  if i ∈ dropped then { infoOf x with uses := [] } else infoOf x

variable (insts extraUses) in
/-- A state after some instructions have been dropped. -/
structure Progress (dropped : Finset Nat) (s : State) : Prop where
  code : ∀ i, s.insts[i]? = (insts[i]?).map fun x => if i ∈ dropped then .removed else x
  infos : ∀ i, s.infos[i]? = (insts[i]?).map (takenInfo dropped i)
  tombstoned : ∀ i, s.tombstoned[i]? = (insts[i]?).map fun _ => decide (i ∈ dropped)
  removed : s.removed = dropped.card
  counts : ∀ r, r.isVirtual = true →
    (s.useCounts r).getD 0 = (supply insts extraUses).remaining dropped r
  idle : ∀ i ∈ dropped, (supply insts extraUses).Idle i
  listed : ∀ i x, insts[i]? = some x → i ∉ dropped → (infoOf x).isDead s.useCounts = true →
    i ∈ s.worklist
  known : ∀ i ∈ s.worklist, i < insts.length

theorem isDead_iff :
    (infoOf x).isDead counts = true ↔ isDceRemovable x = true ∧ x.defs ≠ [] ∧
      (∀ r ∈ x.defs, r.isVirtual = true) ∧ ∀ r ∈ x.defs, (counts r).getD 0 = 0 := by
  simp [InstInfo.isDead, infoOf, and_assoc]

theorem isDead_takenInfo {dropped : Finset Nat} :
    (takenInfo dropped i x).isDead counts = (infoOf x).isDead counts := by
  unfold takenInfo
  split <;> rfl

theorem sum_set_uses {infos : List InstInfo} {info : InstInfo} (isInfo : infos[i]? = some info) :
    ((infos.set i { info with uses := [] }).map fun info => info.uses.length).sum +
      info.uses.length = (infos.map fun info => info.uses.length).sum := by
  induction infos generalizing i with
  | nil => cases isInfo
  | cons first infos ih =>
    cases i with
    | zero =>
      cases isInfo
      simp [Nat.add_comm]
    | succ i =>
      have := ih isInfo
      simp only [List.set_cons_succ, List.map_cons, List.sum_cons]
      omega

/-- Marking one more index as dropped. -/
theorem getElem?_set_dropped {α : Type} {xs : List α} {f : Finset Nat → Nat → Inst → α}
    {dropped : Finset Nat} (isInst : insts[i]? = some x)
    (isList : ∀ j, xs[j]? = (insts[j]?).map (f dropped j))
    (apart : ∀ j y, j ≠ i → f (insert i dropped) j y = f dropped j y) (k : Nat) :
    (xs.set i (f (insert i dropped) i x))[k]? = (insts[k]?).map (f (insert i dropped) k) := by
  rw [List.getElem?_set]
  by_cases same : i = k
  · subst same
    have bound : i < xs.length := by
      have found := isList i
      rw [isInst, Option.map_some] at found
      exact (List.getElem?_eq_some_iff.mp found).1
    simp [bound, isInst]
  · rw [if_neg same, isList]
    cases insts[k]? with
    | none => rfl
    | some y => simp [apart k y (Ne.symm same)]

variable {dropped : Finset Nat} {s : State}

theorem Progress.enough (progress : Progress insts extraUses dropped s)
    (isInst : insts[i]? = some x) (kept : i ∉ dropped) (r : Reg) :
    (infoOf x).uses.count r ≤ (s.useCounts r).getD 0 := by
  by_cases isVirtual : r.isVirtual = true
  · have := Supply.count_le_remaining ((@mem_items insts extraUses i).mpr ⟨x, isInst⟩) kept r
    rw [progress.counts r isVirtual, infoOf, count_filter_isVirtual isVirtual]
    simpa [supply, isInst] using this
  · rw [infoOf, List.count_eq_zero.mpr fun isUse => isVirtual (List.mem_filter.mp isUse).2]
    exact Nat.zero_le _

/-- Nothing is dropped for an index that is dropped already, or in use. -/
theorem Progress.skip (progress : Progress insts extraUses dropped s) {rest : List Nat} {i : Nat}
    {x : Inst} (isInst : insts[i]? = some x)
    (alive : i ∈ dropped ∨ (infoOf x).isDead s.useCounts = false)
    (others : ∀ j, j ∈ s.worklist → j = i ∨ j ∈ rest) (fewer : ∀ j ∈ rest, j ∈ s.worklist) :
    Progress insts extraUses dropped { s with worklist := rest } where
  code := progress.code
  infos := progress.infos
  tombstoned := progress.tombstoned
  removed := progress.removed
  counts := progress.counts
  idle := progress.idle
  listed j y isInst' kept dead := by
    refine (others j (progress.listed j y isInst' kept dead)).resolve_left ?_
    rintro rfl
    obtain rfl : x = y := Option.some.inj (isInst.symm.trans isInst')
    rcases alive with gone | alive
    · exact kept gone
    · exact Bool.false_ne_true (alive.symm.trans dead)
  known j inside := progress.known j (fewer j inside)

/-- An instruction that is dead by the counters is dropped. -/
theorem Progress.drop (single : SingleDef insts) (progress : Progress insts extraUses dropped s)
    {rest : List Nat} (isInst : insts[i]? = some x) (kept : i ∉ dropped)
    (dead : (infoOf x).isDead s.useCounts = true) (others : ∀ j, j ∈ s.worklist → j = i ∨ j ∈ rest)
    (fewer : ∀ j ∈ rest, j ∈ s.worklist) :
    ∃ counts' pushed, pushed.length ≤ (infoOf x).uses.length ∧
      dropUses (collect insts extraUses).defSite (infoOf x).uses (s.useCounts, rest) =
        some (counts', rest ++ pushed) ∧
      Progress insts extraUses (insert i dropped) {
        insts := s.insts.set i .removed
        infos := s.infos.set i { infoOf x with uses := [] }
        useCounts := counts'
        worklist := rest ++ pushed
        tombstoned := s.tombstoned.set i true
        removed := s.removed + 1 } := by
  have item := (@mem_items insts extraUses i).mpr ⟨x, isInst⟩
  obtain ⟨removable, defs, virtualDefs, unused⟩ := isDead_iff.mp dead
  obtain ⟨counts', pushed, run, left, few, sound, complete⟩ := dropUses_spec
    (collect insts extraUses).defSite (infoOf x).uses s.useCounts rest
    (progress.enough isInst kept)
  refine ⟨counts', pushed, few, run, ?_⟩
  constructor
  · have marked := getElem?_set_dropped (f := fun d j y => if j ∈ d then .removed else y)
      isInst progress.code fun j y other => by simp [other]
    simpa using marked
  · have marked := getElem?_set_dropped (f := takenInfo) isInst progress.infos
      fun j y other => by simp [takenInfo, other]
    simpa [takenInfo] using marked
  · have marked := getElem?_set_dropped (f := fun d j _ => decide (j ∈ d)) isInst
      progress.tombstoned fun j y other => by simp [other]
    simpa using marked
  · rw [Finset.card_insert_of_notMem kept, progress.removed]
  · intro r isVirtual
    have before := progress.counts r isVirtual
    have after := Supply.remaining_insert item kept r
    have dropped' := left r
    have same : ((supply insts extraUses).uses i).count r = (infoOf x).uses.count r := by
      rw [infoOf, count_filter_isVirtual isVirtual]
      simp [supply, isInst]
    show (counts' r).getD 0 = _
    omega
  · intro j isDropped
    rcases Finset.mem_insert.mp isDropped with rfl | old
    · refine Supply.idle_of_remaining progress.idle item ⟨x, isInst, removable, defs, virtualDefs⟩
        fun r isDef => ?_
      have isDef : r ∈ x.defs := by simpa [supply, isInst] using isDef
      rw [← progress.counts r (virtualDefs r isDef)]
      exact unused r isDef
    · exact progress.idle j old
  · intro j y isInst' kept' dead'
    obtain ⟨apart, old⟩ := not_or.mp (mt Finset.mem_insert.mpr kept')
    obtain ⟨removable', defs', virtualDefs', unused'⟩ := isDead_iff.mp dead'
    by_cases before : (infoOf y).isDead s.useCounts = true
    · exact List.mem_append_left _
        ((others j (progress.listed j y isInst' old before)).resolve_left apart)
    · -- one of its registers has lost its last use now
      obtain ⟨r, isDef, used⟩ : ∃ r ∈ y.defs, (s.useCounts r).getD 0 ≠ 0 := by
        by_contra none
        simp only [not_exists, not_and, not_not] at none
        exact before (isDead_iff.mpr ⟨removable', defs', virtualDefs', none⟩)
      have gone := unused' r isDef
      have isUse : r ∈ (infoOf x).uses := by
        by_contra other
        have := left r
        rw [List.count_eq_zero_of_not_mem other] at this
        exact used (this.symm.trans (by simpa using gone))
      exact List.mem_append_right _ (complete r isUse gone j
        (defSite_complete single isInst' (virtualDefs' r isDef) isDef))
  · intro j inside
    rcases List.mem_append.mp inside with old | new
    · exact progress.known j (fewer j old)
    · obtain ⟨r, -, site⟩ := sound j new
      obtain ⟨-, y, isInst', -⟩ := defSite_sound site
      exact (List.getElem?_eq_some_iff.mp isInst').1

/-- Whichever index is taken, the turn succeeds and leaves less work. -/
theorem progress_visit (single : SingleDef insts) (progress : Progress insts extraUses dropped s)
    {before after : List Nat} (taken : s.worklist = before ++ i :: after) :
    ∃ t, visit (collect insts extraUses).defSite s (before ++ after) i = some t ∧
      t.work < s.work ∧ ∃ dropped', Progress insts extraUses dropped' t := by
  have others : ∀ j, j ∈ s.worklist → j = i ∨ j ∈ before ++ after := by
    intro j inside
    rw [taken] at inside
    simp only [List.mem_append, List.mem_cons] at inside ⊢
    tauto
  have fewer : ∀ j ∈ before ++ after, j ∈ s.worklist := by
    intro j inside
    rw [taken]
    simp only [List.mem_append, List.mem_cons] at inside ⊢
    tauto
  have shorter : s.worklist.length = (before ++ after).length + 1 := by
    rw [taken]
    simp only [List.length_append, List.length_cons]
    omega
  obtain ⟨x, isInst⟩ : ∃ x, insts[i]? = some x := by
    have bound := progress.known i (by simp [taken])
    exact ⟨_, List.getElem?_eq_getElem bound⟩
  have isDone : s.tombstoned[i]? = some (decide (i ∈ dropped)) := by
    rw [progress.tombstoned, isInst, Option.map_some]
  have isInfo : s.infos[i]? = some (takenInfo dropped i x) := by
    rw [progress.infos, isInst, Option.map_some]
  by_cases alive : i ∈ dropped ∨ (infoOf x).isDead s.useCounts = false
  · refine ⟨_, ?_, ?_, dropped, progress.skip isInst alive others fewer⟩
    · simp only [visit, isDone, isInfo, Option.bind_eq_bind, Option.bind_some, isDead_takenInfo]
      refine if_pos ?_
      rcases alive with gone | alive <;> simp_all
    · simp only [State.work, shorter]
      omega
  · obtain ⟨kept, dead⟩ := not_or.mp alive
    have dead : (infoOf x).isDead s.useCounts = true := by simpa using dead
    have isInfo : s.infos[i]? = some (infoOf x) := by rw [isInfo, takenInfo, if_neg kept]
    obtain ⟨counts', pushed, few, run, progress'⟩ :=
      progress.drop single isInst kept dead others fewer
    refine ⟨_, ?_, ?_, insert i dropped, progress'⟩
    · simp [visit, isDone, isInfo, kept, dead, run]
    · have := sum_set_uses isInfo
      simp only [State.work, shorter, List.length_append] at this ⊢
      omega

theorem progress_start : Progress insts extraUses ∅ (start insts extraUses) where
  code i := by simp [start]
  infos i := by
    rw [start, collect_infos, List.getElem?_map]
    cases insts[i]? <;> rfl
  tombstoned i := by
    by_cases bound : i < insts.length <;> simp [start, bound]
  removed := rfl
  counts r isVirtual := by
    rw [← @usesLeft_eq insts extraUses ∅ insts (fun i => by simp)]
    exact collect_useCounts insts isVirtual
  idle i isDropped := absurd isDropped (Finset.notMem_empty i)
  listed i x isInst _ dead := by
    refine List.mem_filter.mpr ⟨List.mem_range.mpr (List.getElem?_eq_some_iff.mp isInst).1, ?_⟩
    rw [collect_infos, List.getElem?_map, isInst]
    exact dead
  known i inside := List.mem_range.mp (List.mem_filter.mp inside).1

theorem progress_reaches (single : SingleDef insts)
    (reaches : Relation.ReflTransGen (Takes (collect insts extraUses).defSite)
      (start insts extraUses) s) : ∃ dropped, Progress insts extraUses dropped s := by
  induction reaches with
  | refl => exact ⟨∅, progress_start⟩
  | tail _ takes ih =>
    obtain ⟨dropped, progress⟩ := ih
    obtain ⟨before, i, after, taken, ran⟩ := takes
    obtain ⟨t, ran', -, next⟩ := progress_visit single progress taken
    cases ran.symm.trans ran'
    exact next

theorem Progress.removes (progress : Progress insts extraUses dropped s) :
    Removes insts dropped s.insts := by
  refine ⟨?_, fun i bound => ⟨fun gone => ?_, fun kept => ?_⟩⟩
  · apply Nat.le_antisymm <;> refine le_of_not_gt fun less => ?_
    · have := progress.code insts.length
      simp [less] at this
    · have := progress.code s.insts.length
      simp [less] at this
  · rw [progress.code, List.getElem?_eq_getElem bound, Option.map_some,
      if_pos (Finset.mem_coe.mp gone)]
  · rw [progress.code, List.getElem?_eq_getElem bound, Option.map_some,
      if_neg (mt Finset.mem_coe.mpr kept)]

/-- When the worklist is empty, the dropped instructions are the least closed set. -/
theorem Progress.isLeast (progress : Progress insts extraUses dropped s) (ended : s.worklist = []) :
    IsLeast {S | Closed insts extraUses S} (dropped : Set Nat) := by
  rw [← isLeast_iff]
  refine Supply.isLeast_of_stable progress.idle ?_
  rintro i - ⟨x, isInst, removable, defs, virtualDefs⟩ unused
  by_contra kept
  have listed := progress.listed i x isInst kept (isDead_iff.mpr ⟨removable, defs, virtualDefs,
    fun r isDef => by
      rw [progress.counts r (virtualDefs r isDef)]
      exact unused r (by simpa [supply, isInst] using isDef)⟩)
  rw [ended] at listed
  cases listed

/-- The counters hold the uses that are left and those that are just being taken away. -/
def CountsExact (extraUses : List Reg) (insts : List Inst) (pending : List Reg)
    (counts : Reg → Option Nat) : Prop :=
  ∀ r, r.isVirtual = true → (counts r).getD 0 = usesLeft extraUses insts r + pending.count r

theorem Progress.countsExact (progress : Progress insts extraUses dropped s) :
    CountsExact extraUses s.insts [] s.useCounts := by
  intro r isVirtual
  rw [progress.counts r isVirtual, usesLeft_eq progress.code, List.count_nil, Nat.add_zero]

/-- The counters inside the loop that takes the uses of an instruction away. -/
theorem Progress.countsExact_during (progress : Progress insts extraUses dropped s)
    (isInst : insts[i]? = some x) (kept : i ∉ dropped) {taken pending : List Reg}
    (split : (infoOf x).uses = taken ++ pending) (defSite : Reg → Option Nat) (rest : List Nat) :
    ∃ counts' worklist', dropUses defSite taken (s.useCounts, rest) = some (counts', worklist') ∧
      CountsExact extraUses (s.insts.set i .removed) pending counts' := by
  have enough := progress.enough isInst kept
  simp only [split, List.count_append] at enough
  obtain ⟨counts', pushed, run, left, -⟩ := dropUses_spec defSite taken s.useCounts rest
    fun r => le_trans (Nat.le_add_right _ _) (enough r)
  refine ⟨counts', _, run, fun r isVirtual => ?_⟩
  have marked := getElem?_set_dropped (f := fun d j y => if j ∈ d then .removed else y)
    isInst progress.code fun j y other => by simp [other]
  have code : (s.insts.set i .removed) =
      s.insts.set i (if i ∈ insert i dropped then .removed else x) := by simp
  rw [code, usesLeft_eq marked]
  have before := progress.counts r isVirtual
  have after := Supply.remaining_insert ((@mem_items insts extraUses i).mpr ⟨x, isInst⟩) kept r
  have same : ((supply insts extraUses).uses i).count r = taken.count r + pending.count r := by
    rw [← List.count_append, ← split, infoOf, count_filter_isVirtual isVirtual]
    simp [supply, isInst]
  have := left r
  omega

/-- One turn of the code's loop, which takes the last index. -/
theorem progress_step (single : SingleDef insts) (progress : Progress insts extraUses dropped s) :
    s.worklist = [] ∧ step (collect insts extraUses).defSite s = some (.inr s) ∨
      ∃ t, step (collect insts extraUses).defSite s = some (.inl t) ∧ t.work < s.work ∧
        ∃ dropped', Progress insts extraUses dropped' t := by
  cases last : s.worklist.getLast? with
  | none => exact .inl ⟨List.getLast?_eq_none_iff.mp last, by simp only [step, last]⟩
  | some i =>
    obtain ⟨t, ran, less, next⟩ := progress_visit single progress
      (List.dropLast_append_getLast? i last).symm
    rw [List.append_nil] at ran
    exact .inr ⟨t, by simp only [step, last, ran, Option.map_some], less, next⟩

/-- The loop of the code ends, in a state of a run whose worklist is empty. -/
theorem loop_ends (single : SingleDef insts) {fuel : Nat}
    (enough : (start insts extraUses).work < fuel) :
    ∃ last, loop (step (collect insts extraUses).defSite) fuel (start insts extraUses) = some last ∧
      last.worklist = [] ∧ ∃ dropped, Progress insts extraUses dropped last := by
  let Reached := fun s => ∃ dropped, Progress insts extraUses dropped s
  have total : (loop (step (collect insts extraUses).defSite) fuel
      (start insts extraUses)).isSome := by
    refine loop_total (Q := Reached) State.work (fun {s} holds => ?_) ⟨∅, progress_start⟩ enough
    obtain ⟨dropped, progress⟩ := holds
    obtain ⟨-, stepped⟩ | ⟨t, stepped, less, next⟩ := progress_step single progress
    · exact ⟨_, stepped, fun t isLeft => nomatch isLeft⟩
    · refine ⟨_, stepped, fun u isLeft => ?_⟩
      cases isLeft
      exact ⟨next, less⟩
  obtain ⟨last, ran⟩ := Option.isSome_iff_exists.mp total
  obtain ⟨t, ⟨dropped, progress⟩, final⟩ := loop_invariant (Q := Reached)
    (fun {s t} holds stepped => by
      obtain ⟨dropped, progress⟩ := holds
      obtain ⟨-, stepped'⟩ | ⟨u, stepped', -, next⟩ := progress_step single progress
      · cases stepped.symm.trans stepped'
      · cases stepped.symm.trans stepped'
        exact next)
    ⟨∅, progress_start⟩ ran
  refine ⟨last, ran, ?_⟩
  obtain ⟨ended, stepped⟩ | ⟨u, stepped, -⟩ := progress_step single progress
  · cases final.symm.trans stepped
    exact ⟨ended, dropped, progress⟩
  · cases final.symm.trans stepped

/-- The worklist computes the least set of dead instructions, whatever order it is worked
off in: every order ends, with the same instructions removed.  On the way the counters
hold exactly the uses that are left, and afterwards nothing uses a removed definition. -/
theorem eliminateDeadInsts_least (single : SingleDef insts) :
    ∃ S : Finset Nat, IsLeast {S | Closed insts extraUses S} (S : Set Nat) ∧
      (∀ fuel, (start insts extraUses).work < fuel →
        ∃ out, eliminateDeadInsts fuel insts extraUses = some (out, S.card) ∧ Removes insts S out ∧
          ∀ i x, i ∈ S → insts[i]? = some x → ∀ r ∈ x.defs, usesLeft extraUses out r = 0) ∧
      ∀ s, Relation.ReflTransGen (Takes (collect insts extraUses).defSite)
          (start insts extraUses) s →
        CountsExact extraUses s.insts [] s.useCounts ∧
        (∀ before i after, s.worklist = before ++ i :: after →
          (∃ t, visit (collect insts extraUses).defSite s (before ++ after) i = some t ∧
            t.work < s.work) ∧
          ∀ info, s.tombstoned[i]? = some false → s.infos[i]? = some info →
            info.isDead s.useCounts = true → ∀ taken pending, info.uses = taken ++ pending →
            ∃ counts worklist, dropUses (collect insts extraUses).defSite taken
                (s.useCounts, before ++ after) = some (counts, worklist) ∧
              CountsExact extraUses (s.insts.set i .removed) pending counts) ∧
        (s.worklist = [] → Removes insts S s.insts ∧ s.removed = S.card) := by
  obtain ⟨final, -, ended, S, worked⟩ :=
    @loop_ends insts extraUses single _ (Nat.lt_succ_self _)
  have least := worked.isLeast ended
  have same : ∀ {s dropped}, Progress insts extraUses dropped s → s.worklist = [] → dropped = S :=
    fun progress ended => Finset.coe_injective ((progress.isLeast ended).unique least)
  refine ⟨S, least, fun fuel enough => ?_, fun s reaches => ?_⟩
  · obtain ⟨last, ran, ended, dropped, progress⟩ := loop_ends single enough
    obtain rfl := same progress ended
    refine ⟨last.insts, by rw [eliminateDeadInsts, ran, Option.map_some, progress.removed],
      progress.removes, fun i x gone isInst r isDef => ?_⟩
    rw [usesLeft_eq progress.code, Supply.remaining_eq_zero]
    cases progress.idle i gone with
    | intro item candidate unwanted users =>
      have isDef : r ∈ (supply insts extraUses).defs i := by simpa [supply, isInst] using isDef
      refine ⟨unwanted r isDef, fun j isItem isUse => ?_⟩
      have idle : j ∈ {i | (supply insts extraUses).Idle i} := users r isDef j isItem isUse
      rw [(supply insts extraUses).idle_isLeast.unique (isLeast_iff.mpr least)] at idle
      exact Finset.mem_coe.mp idle
  · obtain ⟨dropped, progress⟩ := progress_reaches single reaches
    refine ⟨progress.countsExact, fun before i after inside => ⟨?_, ?_⟩, fun ended => ?_⟩
    · obtain ⟨t, ran, less, -⟩ := progress_visit single progress inside
      exact ⟨t, ran, less⟩
    · intro info notDone isInfo dead taken pending split
      obtain ⟨x, isInst⟩ : ∃ x, insts[i]? = some x :=
        ⟨_, List.getElem?_eq_getElem (progress.known i (by simp [inside]))⟩
      have kept : i ∉ dropped := by
        simpa [progress.tombstoned, isInst] using notDone
      have isInfo : infoOf x = info := by
        simpa [progress.infos, isInst, takenInfo, kept] using isInfo
      exact progress.countsExact_during isInst kept (by rw [isInfo, split]) _ _
    · obtain rfl := same progress ended
      exact ⟨progress.removes, progress.removed⟩

/-- A constant, a copy of it and the sum of the copy with itself, which nothing uses. -/
def copies : List Inst :=
  [.other .movFromZero [] [⟨192, .int⟩], .other .mov [⟨192, .int⟩] [⟨193, .int⟩],
    .aluRRR .add .size32 ⟨194, .int⟩ (.reg ⟨193, .int⟩) (.reg ⟨193, .int⟩), .ret]

theorem eliminateDeadInsts_least_copies :
    SingleDef copies ∧ ∃ S : Finset Nat, IsLeast {S | Closed copies [] S} (S : Set Nat) ∧
      eliminateDeadInsts 100 copies [] = some ([.removed, .removed, .removed, .ret], S.card) := by
  have single : SingleDef copies := by
    intro i j x y isX isY r _ isDef isDef'
    have cases : ∀ (k : Nat) (z : Inst), copies[k]? = some z → r ∈ z.defs → k + 192 = r.vreg := by
      intro k z isZ isDef
      match k with
      | 0 | 1 | 2 =>
        cases isZ
        obtain rfl := List.mem_singleton.mp isDef
        rfl
      | 3 => cases isZ; cases isDef
      | k + 4 => cases isZ
    have := cases i x isX isDef
    have := cases j y isY isDef'
    omega
  refine ⟨single, ?_⟩
  obtain ⟨S, least, ends, -⟩ := @eliminateDeadInsts_least copies [] single
  obtain ⟨out, ran, -⟩ := ends 100 (by decide)
  refine ⟨S, least, ?_⟩
  have result : eliminateDeadInsts 100 copies [] =
      some ([.removed, .removed, .removed, .ret], 3) := by decide
  have size : 3 = S.card := congrArg Prod.snd (Option.some.inj (result.symm.trans ran))
  rw [result, size]

/-! ## Functions -/

end AnonCompiler.Mir.DeadCodeElim
