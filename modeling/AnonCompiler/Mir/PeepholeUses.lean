import AnonCompiler.Mir.PeepholeShape

/-!
# What the peephole pass may drop

A register whose definition the pass drops is counted once as an operand.  The
count makes the one instruction that reads it unique, and the fused form does not
read it any more, so no instruction of the result does (`Combined.unused`).  The
count says nothing of the branch arguments.

For the flags, a subtraction agrees with a comparison of its result with zero on
`eq`, `ne`, `mi` and `pl`, and on no other condition unless it subtracts zero
(`subs_agrees_iff`); a logical operation agrees on all conditions that do not read
the carry (`logical_agrees`).
-/

set_option autoImplicit false

namespace AnonCompiler.Mir.PeepholeCombine

open VCodeContainer

variable {Op World : Type}

/-! ## Flags -/

section Flags

variable {w : Nat} {cond : Cond}

variable {b : BitVec w}

theorem subs_agrees (safe : subsSafeCond cond = true) (a b : BitVec w) :
    cond.holds (.ofSub a b) = cond.holds (.ofSub (a - b) 0) := by
  cases cond <;> simp_all [subsSafeCond, Cond.holds, Flags.ofSub]

theorem logical_agrees (safe : logicalSafeCond cond = true) (r : BitVec w) :
    cond.holds (.ofLogic r) = cond.holds (.ofSub r 0) := by
  cases cond <;> simp_all [logicalSafeCond, Cond.holds, Flags.ofSub, Flags.ofLogic]

/-- Where the smallest signed number stays clear of the subtrahend, the difference
overflows to a positive number and the comparison with zero does not see it. -/
theorem holds_ofSub_intMin (pos : 0 < b.toNat) (small : b.toNat < 2 ^ (w - 1)) :
    Flags.ofSub (BitVec.intMin w) b = ⟨false, false, true, true⟩ ∧
      Flags.ofSub (BitVec.intMin w - b) 0 = ⟨false, false, true, false⟩ := by
  have wide : 0 < w := by
    by_contra zero
    have zero : w = 0 := by omega
    subst zero
    simp at small
    omega
  have split : 2 ^ w = 2 * 2 ^ (w - 1) := by
    rw [← pow_succ']
    congr 1
    omega
  have least : (BitVec.intMin w).toNat = 2 ^ (w - 1) := by
    rw [BitVec.toNat_intMin, Nat.mod_eq_of_lt (by omega)]
  have difference : (BitVec.intMin w - b).toNat = 2 ^ (w - 1) - b.toNat := by
    rw [BitVec.toNat_sub, least, split]
    have : 2 * 2 ^ (w - 1) - b.toNat + 2 ^ (w - 1) =
        2 ^ (w - 1) - b.toNat + 2 * 2 ^ (w - 1) := by omega
    rw [this, Nat.add_mod_right, Nat.mod_eq_of_lt (by omega)]
  have positive : (BitVec.intMin w - b).msb = false := by
    rw [BitVec.msb_eq_decide, difference]
    simp
    omega
  have negative : (BitVec.intMin w).msb = true := by
    rw [BitVec.msb_eq_decide, least]
    simp
  have bPositive : b.msb = false := by
    rw [BitVec.msb_eq_decide]
    simp
    omega
  have nonzero : ¬ BitVec.intMin w - b = 0#w := by
    intro zero
    rw [zero] at difference
    simp at difference
    omega
  have above : (BitVec.intMin w).ult b = false := by
    rw [BitVec.ult_eq_decide, least]
    simp
    omega
  constructor
  · simp [Flags.ofSub, positive, negative, bPositive, nonzero, above]
  · simp [Flags.ofSub, positive, nonzero, BitVec.ult_eq_decide]

theorem holds_ofSub_zero (pos : 0 < b.toNat) :
    (Flags.ofSub 0 b).c = false ∧ (Flags.ofSub (0 - b) 0).c = true ∧
      (Flags.ofSub 0 b).z = (Flags.ofSub (0 - b) 0).z ∧ (Flags.ofSub (0 - b) 0).z = false := by
  have nonzero : ¬ b = 0#w := by
    rintro rfl
    simp at pos
  refine ⟨?_, ?_, ?_, ?_⟩
  · simp [Flags.ofSub, BitVec.ult_eq_decide, pos]
  · simp [Flags.ofSub, BitVec.ult_eq_decide]
  · simp [Flags.ofSub]
  · simp [Flags.ofSub, nonzero]

/-- A subtraction of a positive immediate agrees with the comparison of its result
with zero, for all operands, on the safe conditions only. -/
theorem safe_of_agrees (pos : 0 < b.toNat) (small : b.toNat < 2 ^ (w - 1))
    (agrees : ∀ a, cond.holds (.ofSub a b) = cond.holds (.ofSub (a - b) 0)) :
    subsSafeCond cond = true := by
  have ⟨overflows, hidden⟩ := holds_ofSub_intMin pos small
  have ⟨borrow, noBorrow, sameZero, notZero⟩ := holds_ofSub_zero pos
  have least := agrees (BitVec.intMin w)
  have zero := agrees 0
  rw [overflows, hidden] at least
  cases cond <;> simp_all [Cond.holds, subsSafeCond]

end Flags

variable {α : Type} {i k : Nat} {d r : Reg}

theorem Imm12.bits_of_zero {imm : Imm12} (isZero : imm.value = 0) (size : OperandSize) :
    imm.bits size = 0 := by
  simp [Imm12.bits, isZero]

theorem subs_agrees_iff {cond : Cond} (size : OperandSize) (imm : Imm12) :
    (∀ a, cond.holds (.ofSub a (imm.bits size)) = cond.holds (.ofSub (a - imm.bits size) 0)) ↔
      subsSafeCond cond = true ∨ imm.value = 0 := by
  constructor
  · intro agrees
    by_contra neither
    rw [not_or] at neither
    obtain ⟨unsafe_, nonzero⟩ := neither
    have valid := imm.valid
    have value : 0 < (imm.bits size).toNat ∧ (imm.bits size).toNat < 2 ^ 24 := by
      have bound : (if imm.shift12 = true then imm.value * 4096 else imm.value) < 2 ^ 24 := by
        split <;> omega
      have positive : 0 < (if imm.shift12 = true then imm.value * 4096 else imm.value) := by
        split <;> omega
      have wide : 2 ^ 24 ≤ 2 ^ size.bits := by cases size <;> norm_num
      rw [Imm12.bits, BitVec.toNat_ofNat, Nat.mod_eq_of_lt (by omega)]
      exact ⟨positive, bound⟩
    have wide : 2 ^ 24 ≤ 2 ^ (size.bits - 1) := by cases size <;> norm_num
    exact unsafe_ (safe_of_agrees value.1 (by omega) agrees)
  · rintro (safe | isZero) a
    · exact subs_agrees safe a _
    · simp [Imm12.bits_of_zero isZero]

/-! ## Use counts -/

theorem foldl_bump (counts : Reg → Nat) (l : List Reg) (r : Reg) :
    (l.foldl (fun counts r =>
      if r.isVirtual then Function.update counts r (counts r + 1) else counts)
      counts) r = counts r + if r.isVirtual then l.count r else 0 := by
  induction l generalizing counts with
  | nil => simp
  | cons x l ih =>
    rw [List.foldl_cons, ih, List.count_cons]
    by_cases same : x = r
    · subst same
      by_cases isVirtual : x.isVirtual = true <;> simp [isVirtual]
      omega
    · by_cases isVirtual : x.isVirtual = true <;>
        simp [isVirtual, same, Function.update_of_ne (Ne.symm same)]

/-- The count of a virtual register is how often it is an operand. -/
theorem buildVregUseCounts_eq (F : VCodeContainer Op) (r : Reg) :
    buildVregUseCounts F r = if r.isVirtual then (F.insts.flatMap MInst.uses).count r else 0 := by
  have fold : ∀ (insts : List (MInst Op)) (counts : Reg → Nat),
      (insts.foldl (fun counts inst => inst.uses.foldl (fun counts r =>
        if r.isVirtual then Function.update counts r (counts r + 1) else counts) counts) counts) r =
      counts r + if r.isVirtual then (insts.flatMap MInst.uses).count r else 0 := by
    intro insts
    induction insts with
    | nil => simp
    | cons inst insts ih =>
      intro counts
      rw [List.foldl_cons, ih, foldl_bump, List.flatMap_cons, List.count_append]
      split <;> omega
  simpa [buildVregUseCounts] using fold F.insts fun _ => 0

theorem count_two_le (l : List α) (f : α → List Reg) (r : Reg) {j : Nat} (before : i < j) :
    ((l[i]?).elim [] f).count r + ((l[j]?).elim [] f).count r ≤ (l.flatMap f).count r := by
  induction l generalizing i j with
  | nil => simp
  | cons x l ih =>
    obtain ⟨j, rfl⟩ := Nat.exists_eq_succ_of_ne_zero (by omega : j ≠ 0)
    rw [List.flatMap_cons, List.count_append, List.getElem?_cons_succ]
    cases i with
    | zero =>
      have behind := ih (Nat.lt_succ_self j)
      simp only [List.getElem?_cons_zero, Option.elim_some]
      omega
    | succ i =>
      have behind := ih (i := i) (j := j) (by omega)
      rw [List.getElem?_cons_succ]
      omega

theorem count_le (l : List α) (f : α → List Reg) (r : Reg) (i : Nat) :
    ((l[i]?).elim [] f).count r ≤ (l.flatMap f).count r := by
  have := count_two_le l f r (Nat.lt_succ_self i)
  omega

variable {F : VCodeContainer Op}

theorem uses_inst (k : Nat) : (F.inst k).uses = (F.insts[k]?).elim [] MInst.uses := by
  rw [VCodeContainer.inst, List.getD_eq_getElem?_getD]
  cases F.insts[k]? <;> rfl

section Once

variable {r : Reg} (once : buildVregUseCounts F r = 1)
include once

theorem isVirtual_of_once : r.isVirtual = true := by
  rw [buildVregUseCounts_eq] at once
  by_contra notVirtual
  rw [if_neg notVirtual] at once
  exact absurd once zero_ne_one

/-- A register counted once is read by one instruction, as one operand. -/
theorem user_unique {i j : Nat} (first : r ∈ (F.inst i).uses) (second : r ∈ (F.inst j).uses) :
    i = j := by
  have total := buildVregUseCounts_eq F r
  rw [once, if_pos (isVirtual_of_once once)] at total
  rw [uses_inst] at first second
  have first := List.count_pos_iff.2 first
  have second := List.count_pos_iff.2 second
  by_contra differ
  obtain before | before := Nat.lt_or_gt_of_ne differ
  · have := count_two_le F.insts MInst.uses r before
    omega
  · have := count_two_le F.insts MInst.uses r before
    omega

theorem count_uses_le_one (i : Nat) : (F.inst i).uses.count r ≤ 1 := by
  have total := buildVregUseCounts_eq F r
  rw [once, if_pos (isVirtual_of_once once)] at total
  rw [uses_inst, total]
  exact count_le F.insts MInst.uses r i

end Once

/-! ## Dropped definitions -/

/-- The pass drops the definition of `d` at index `k`: it is a fused product, or a
conjunction of which only the flags are kept. -/
def Drops (F : VCodeContainer Op) (k : Nat) (d : Reg) : Prop :=
  d ∈ (F.inst k).defs ∧
    ((pairAt F k).isSome ∨ ∃ size src imm, tripleAt F k = some (.tstRRImmLogic size src imm))

section Forms

variable {useCounts : Reg → Nat} {cond : Cond} {a b c fused : MInst Op} {r d : Reg}

theorem MacPair.uses (pair : MacPair useCounts a b fused) (used : r ∈ fused.uses) :
    r ∈ a.uses ∨ r ∈ b.uses := by
  cases pair <;> simp_all [MInst.uses, RegOrZr.regs] <;> tauto

theorem MacPair.once (pair : MacPair useCounts a b fused) (isDef : d ∈ a.defs) :
    useCounts d = 1 ∧ d ∈ b.uses := by
  cases pair <;> simp_all [MInst.defs, MInst.uses, RegOrZr.regs]

/-- The fused form does not read the product. -/
theorem MacPair.unread (pair : MacPair useCounts a b fused) (isDef : d ∈ a.defs)
    (notFirst : d ∉ a.uses) (single : b.uses.count d ≤ 1) : d ∉ fused.uses := by
  cases pair with
  | addLeft once | addRight once | sub once =>
    simp only [MInst.defs, List.mem_singleton] at isDef
    subst isDef
    simp only [MInst.uses, RegOrZr.regs, List.singleton_append, List.count_cons, List.count_nil,
      beq_self_eq_true, if_true] at single
    simp only [MInst.uses, RegOrZr.regs, List.singleton_append, List.mem_cons, List.not_mem_nil,
      or_false, not_or] at notFirst ⊢
    refine ⟨notFirst.1, notFirst.2, ?_⟩
    rintro rfl
    simp at single

theorem FlagTriple.uses (triple : FlagTriple useCounts cond a b c fused) : fused.uses = a.uses := by
  cases triple <;> rfl

theorem FlagTriple.tst_once {size : OperandSize} {src : RegOrZr} {imm : ImmLogic}
    (triple : FlagTriple useCounts cond a b c (.tstRRImmLogic size src imm)) (isDef : d ∈ a.defs) :
    useCounts d = 1 ∧ d ∈ b.uses := by
  cases triple with
  | tst isZero safe once => simp_all [MInst.defs, MInst.uses]

theorem MacPair.mul (pair : MacPair useCounts a b fused) :
    ∃ size d l r, a = .aluRRR .mul size d (.reg l) (.reg r) := by
  cases pair <;> exact ⟨_, _, _, _, rfl⟩

theorem MacPair.defs (pair : MacPair useCounts a b fused) :
    (∃ d, a.defs = [d]) ∧ fused.defs = b.defs := by
  cases pair <;> exact ⟨⟨_, rfl⟩, rfl⟩

theorem FlagTriple.defs (triple : FlagTriple useCounts cond a b c fused) :
    (fused.defs = a.defs ∨ ∃ size src imm d, fused = .tstRRImmLogic size src imm ∧ a.defs = [d]) ∧
      b.defs = [] := by
  cases triple with
  | subs | ands => exact ⟨.inl rfl, rfl⟩
  | tst => exact ⟨.inr ⟨_, _, _, _, rfl, rfl⟩, rfl⟩

end Forms

variable {G : VCodeContainer Op} {done : MirBlock → Prop}

/-- A dropped register is counted once, for the instruction behind its definition. -/
theorem Drops.once (drops : Drops F k d) :
    buildVregUseCounts F d = 1 ∧ d ∈ (F.inst (k + 1)).uses := by
  obtain ⟨isDef, product | ⟨size, src, imm, found⟩⟩ := drops
  · obtain ⟨fused, found⟩ := Option.isSome_iff_exists.1 product
    exact (pairAt_cases found).once isDef
  · obtain ⟨cond, triple⟩ := tripleAt_cases found
    exact triple.tst_once isDef

theorem Drops.defs_eq_nil (combined : Combined F G done) (drops : Drops F k d) :
    (G.inst k).defs = [] := by
  obtain ⟨-, product | ⟨size, src, imm, found⟩⟩ := drops
  · obtain ⟨fused, found⟩ := Option.isSome_iff_exists.1 product
    rw [(combined.pair k fused found).1]
    rfl
  · rw [(combined.triple k _ found).1]
    rfl

/-- The reader of a dropped register starts no fusion and ends no latch. -/
theorem Drops.next {k : Nat} {d : Reg} (drops : Drops F k d) :
    pairAt F (k + 1) = none ∧ tripleAt F (k + 1) = none ∧
      ∀ size dst src imm, F.inst (k + 1) ≠ .aluRRImm12 .sub size dst src imm := by
  obtain ⟨-, product | ⟨size, src, imm, found⟩⟩ := drops
  · obtain ⟨fused, found⟩ := Option.isSome_iff_exists.1 product
    have pair := pairAt_cases found
    refine ⟨?_, ?_, ?_⟩
    · by_contra again
      obtain ⟨fused', again⟩ := Option.ne_none_iff_exists'.1 again
      exact pair.not_next (pairAt_cases again)
    · by_contra again
      obtain ⟨fused', again⟩ := Option.ne_none_iff_exists'.1 again
      obtain ⟨cond, triple⟩ := tripleAt_cases again
      have mac := pair.isMac.2.1
      rw [triple.not_isMac.1] at mac
      exact Bool.false_ne_true mac
    · intro size dst src imm sub
      have mac := pair.isMac.2.1
      rw [sub] at mac
      cases mac
  · obtain ⟨cond, triple⟩ := tripleAt_cases found
    obtain ⟨cmpSize, dst, zero, compare⟩ := triple.compare.1
    refine ⟨?_, ?_, ?_⟩
    · by_contra again
      obtain ⟨fused', again⟩ := Option.ne_none_iff_exists'.1 again
      have mac := (pairAt_cases again).isMac.1
      rw [compare] at mac
      cases mac
    · by_contra again
      obtain ⟨fused', again⟩ := Option.ne_none_iff_exists'.1 again
      obtain ⟨cond', triple'⟩ := tripleAt_cases again
      exact triple.not_next.1 triple'
    · intro size dst src imm sub
      rw [compare] at sub
      cases sub

/-- No instruction of the result reads a register whose definition was dropped. -/
theorem Combined.unused (combined : Combined F G done) (drops : Drops F k d) (m : Nat) :
    d ∉ (G.inst m).uses := by
  intro used
  obtain ⟨once, reader⟩ := drops.once
  obtain ⟨noPair, noTriple, noSub⟩ := drops.next
  obtain same | product | ⟨j, rfl, sum⟩ | first | ⟨j, rfl, second⟩ |
      ⟨b, l, isDone, found, position⟩ := combined.other m
  · -- the reader itself is rewritten
    rw [same] at used
    have here := user_unique once used reader
    subst here
    obtain ⟨-, product | ⟨size, src, imm, found⟩⟩ := drops
    · obtain ⟨fused, found⟩ := Option.isSome_iff_exists.1 product
      have forms := (pairAt_cases found).forms
      rw [← same, (combined.pair k fused found).2] at forms
      obtain ⟨⟨-, fusible, isFused⟩, -⟩ := forms
      cases fused <;> simp_all [PeepholeCombine.isFusible, PeepholeCombine.isFused]
    · rw [← same, (combined.triple k _ found).2] at used
      cases used
  · obtain ⟨fused, found⟩ := Option.isSome_iff_exists.1 product
    rw [(combined.pair m fused found).1] at used
    cases used
  · obtain ⟨fused, found⟩ := Option.isSome_iff_exists.1 sum
    have pair := pairAt_cases found
    rw [(combined.pair j fused found).2] at used
    obtain first | second := pair.uses used
    · have here := user_unique once first reader
      subst here
      rw [found] at noPair
      cases noPair
    · have here := user_unique once second reader
      have here : j = k := by omega
      subst here
      have notFirst : d ∉ (F.inst j).uses := by
        intro early
        have := user_unique once early reader
        omega
      exact pair.unread drops.1 notFirst (count_uses_le_one once _) used
  · obtain ⟨fused, found⟩ := Option.isSome_iff_exists.1 first
    obtain ⟨cond, triple⟩ := tripleAt_cases found
    rw [(combined.triple m fused found).1, triple.uses] at used
    have here := user_unique once used reader
    subst here
    rw [found] at noTriple
    cases noTriple
  · obtain ⟨fused, found⟩ := Option.isSome_iff_exists.1 second
    rw [(combined.triple j fused found).2] at used
    cases used
  · obtain ⟨lhs, cond, pred, latch⟩ := latchAt_isLatch found
    obtain ⟨sub, cmp⟩ := combined.latch b l isDone found
    obtain rfl | rfl := position
    · rw [sub] at used
      have source : d ∈ (F.inst l.subIdx).uses := by
        rw [latch.sub]
        exact used
      have here := user_unique once source reader
      exact noSub _ _ _ _ (here ▸ latch.sub)
    · rw [cmp] at used
      cases used

/-- An instruction of the result defines what the original one did, or its one
definition was dropped. -/
theorem Combined.defs (combined : Combined F G done) (m : Nat) :
    (G.inst m).defs = (F.inst m).defs ∨ ∃ d, (F.inst m).defs = [d] ∧ Drops F m d := by
  obtain same | product | ⟨j, rfl, sum⟩ | first | ⟨j, rfl, second⟩ |
      ⟨b, l, isDone, found, position⟩ := combined.other m
  · exact .inl (by rw [same])
  · obtain ⟨fused, found⟩ := Option.isSome_iff_exists.1 product
    obtain ⟨⟨d, only⟩, -⟩ := (pairAt_cases found).defs
    exact .inr ⟨d, only, by simp [only], .inl product⟩
  · obtain ⟨fused, found⟩ := Option.isSome_iff_exists.1 sum
    rw [(combined.pair j fused found).2]
    exact .inl (pairAt_cases found).defs.2
  · obtain ⟨fused, found⟩ := Option.isSome_iff_exists.1 first
    obtain ⟨cond, triple⟩ := tripleAt_cases found
    obtain ⟨same | ⟨size, src, imm, d, rfl, only⟩, -⟩ := triple.defs
    · exact .inl (by rw [(combined.triple m fused found).1, same])
    · exact .inr ⟨d, only, by simp [only], .inr ⟨size, src, imm, found⟩⟩
  · obtain ⟨fused, found⟩ := Option.isSome_iff_exists.1 second
    obtain ⟨cond, triple⟩ := tripleAt_cases found
    rw [(combined.triple j fused found).2, triple.defs.2]
    exact .inl rfl
  · obtain ⟨lhs, cond, pred, latch⟩ := latchAt_isLatch found
    obtain ⟨zero, compare, -⟩ := latch.compare
    have ⟨sub, cmp⟩ := combined.latch b l isDone found
    obtain rfl | rfl := position
    · rw [sub, latch.sub]
      exact .inl rfl
    · rw [cmp, compare]
      exact .inl rfl

/-- A register is read by an instruction or passed by a branch. -/
def Used (G : VCodeContainer Op) (r : Reg) : Prop :=
  (∃ k, r ∈ (G.inst k).uses) ∨ r ∈ G.branchBlockArgs

/-- No register that is still used lost its definition. -/
def KeepsDefs (F G : VCodeContainer Op) : Prop := ∀ r, r ∈ F.allDefs → Used G r → r ∈ G.allDefs

theorem mem_allDefs : r ∈ F.allDefs ↔
    r ∈ F.params.flatten ∨ r.isVirtual = true ∧ ∃ k, r ∈ (F.inst k).defs := by
  have insts : (∃ x ∈ F.insts, r ∈ x.defs) ↔ ∃ k, r ∈ (F.inst k).defs := by
    constructor
    · rintro ⟨x, mem, isDef⟩
      obtain ⟨k, at_k⟩ := List.getElem?_of_mem mem
      exact ⟨k, by simpa [VCodeContainer.inst, List.getD_eq_getElem?_getD, at_k] using isDef⟩
    · rintro ⟨k, isDef⟩
      cases at_k : F.insts[k]? with
      | none => simp [VCodeContainer.inst, List.getD_eq_getElem?_getD, at_k, MInst.defs] at isDef
      | some x =>
        exact ⟨x, List.mem_of_getElem? at_k,
          by simpa [VCodeContainer.inst, List.getD_eq_getElem?_getD, at_k] using isDef⟩
  simp only [allDefs, List.mem_append, List.mem_filter, List.mem_flatMap, insts]
  tauto

/-- In a verified function a register is defined at one index, and is then no block
parameter. -/
theorem def_unique (verified : F.Verified) (isVirtual : r.isVirtual = true)
    (isDef : r ∈ (F.inst i).defs) : r ∉ F.params.flatten ∧ ∀ j, r ∈ (F.inst j).defs → i = j := by
  have unique := verified.unique
  rw [allDefs, List.nodup_append] at unique
  obtain ⟨-, insts, apart⟩ := unique
  have at_inst : ∀ j, r ∈ (F.inst j).defs → r ∈ (F.insts[j]?).elim [] MInst.defs := by
    intro j isDef
    rw [VCodeContainer.inst, List.getD_eq_getElem?_getD] at isDef
    cases at_j : F.insts[j]? with
    | none => simp [at_j, MInst.defs] at isDef
    | some x => simpa [at_j] using isDef
  have listed : r ∈ (F.insts.flatMap MInst.defs).filter Reg.isVirtual := by
    have := count_le F.insts MInst.defs r i
    have := List.count_pos_iff.2 (at_inst i isDef)
    exact List.mem_filter.2 ⟨List.count_pos_iff.1 (by omega), isVirtual⟩
  refine ⟨fun isParam => apart r isParam r listed rfl, ?_⟩
  intro j isDef'
  have single := List.nodup_iff_count_le_one.1 insts r
  rw [List.count_filter isVirtual] at single
  have first := List.count_pos_iff.2 (at_inst i isDef)
  have second := List.count_pos_iff.2 (at_inst j isDef')
  by_contra differ
  obtain before | before := Nat.lt_or_gt_of_ne differ
  · have := count_two_le F.insts MInst.defs r before
    omega
  · have := count_two_le F.insts MInst.defs r before
    omega

/-- The definitions that matter survive exactly when no dropped register is a branch
argument. -/
theorem keepsDefs_iff (verified : F.Verified) (combined : Combined F G done) :
    KeepsDefs F G ↔ ∀ k d, Drops F k d → d ∉ F.branchBlockArgs := by
  constructor
  · intro keeps k d drops isArg
    have isVirtual := isVirtual_of_once drops.once.1
    have used : Used G d := .inr (by rwa [combined.tables.branchBlockArgs])
    have kept := keeps d (mem_allDefs.2 (.inr ⟨isVirtual, k, drops.1⟩)) used
    obtain ⟨notParam, unique⟩ := def_unique verified isVirtual drops.1
    obtain isParam | ⟨-, m, isDef⟩ := mem_allDefs.1 kept
    · rw [combined.tables.params] at isParam
      exact notParam isParam
    · obtain same | ⟨d', only, drops'⟩ := combined.defs m
      · rw [same] at isDef
        have here := unique m isDef
        subst here
        rw [← same, drops.defs_eq_nil combined] at isDef
        cases isDef
      · rw [drops'.defs_eq_nil combined] at isDef
        cases isDef
  · intro free r isDef used
    obtain isParam | ⟨isVirtual, k, isDef⟩ := mem_allDefs.1 isDef
    · exact mem_allDefs.2 (.inl (by rwa [combined.tables.params]))
    · obtain same | ⟨d, only, drops⟩ := combined.defs k
      · exact mem_allDefs.2 (.inr ⟨isVirtual, k, by rwa [same]⟩)
      · rw [only, List.mem_singleton] at isDef
        subst isDef
        obtain ⟨m, isUse⟩ | isArg := used
        · exact absurd isUse (combined.unused drops m)
        · rw [combined.tables.branchBlockArgs] at isArg
          exact absurd isArg (free k r drops)

end AnonCompiler.Mir.PeepholeCombine
