import AnonCompiler.Mir.PeepholeUses

/-!
# When the peephole pass keeps the meaning of a function

The function after the pass runs in lockstep with the one before it: both stand at
the same index of the same block, with the same world, and agree on every register
the result still uses.  The relation that carries this (`Rel`) also says what the
two runs owe each other inside a fusion: behind a product that was dropped the
original holds it, and where a comparison was dropped the flags of the result
answer its condition as the comparison would.

The pass drops a definition when it counts one operand, and the arguments of
branches are no operands; and its cross-block rule does not look at the condition
of the branch.  Both show in `peephole_preserves_iff`.
-/

set_option autoImplicit false

namespace AnonCompiler.Mir.PeepholeCombine

open VCodeContainer

variable {Op World : Type}

/-! ## What is to be kept -/

structure Agree (G : VCodeContainer Op) (s t : State World) : Prop where
  block : t.block = s.block
  pc : t.pc = s.pc
  world : t.world = s.world
  regs : ∀ r, Used G r → t.regs r = s.regs r

/-- From every state of the registers, the flags and the world, the two functions go
through the same blocks and instructions, with the same values in every register
that is still used, the arguments of the branches among them. -/
def Lockstep (M : Target Op World) (F G : VCodeContainer Op) : Prop :=
  ∀ ρ f w n, Option.Rel (Agree G) (F.run M n (F.initial ρ f w)) (G.run M n (G.initial ρ f w))

/-- The instruction whose flags reach a comparison that was removed: the one before
it, or the last but one of the only predecessor. -/
inductive FlagSource (M : Target Op World) (F G : VCodeContainer Op) (b : MirBlock) (k : Nat) :
    Nat → Prop
  | inBlock {j : Nat} (next : j + 1 = k) (inside : F.start b ≤ j)
      (sets : (G.inst j).setsFlags M = true) : FlagSource M F G b k j
  | latch {pred : MirBlock} {j : Nat} (preds : F.blockPreds b = [pred]) (last : F.stop pred = j + 2)
      (first : ∀ m, F.start b ≤ m → m < k → F.inst m = .removed) : FlagSource M F G b k j

/-- Whatever the operands, the fused instruction answers the condition of the branch
as the removed comparison did. -/
def KeepsFlags (M : Target Op World) (F G : VCodeContainer Op) : Prop :=
  ∀ b k size lhs zero cond t e, F.InBlock b k → F.inst k = .cmpImm size lhs zero →
    F.inst (k + 1) = .condBr cond t e → G.inst k = .removed → ∀ j, FlagSource M F G b k j →
    ∀ ρ f w v w', (F.inst j).results M ρ f w = some ([v], w') →
      cond.holds ((G.inst j).flagsAfter M ρ f w) =
        cond.holds (.ofSub (v.read size) (zero.bits size))

structure Preserves (M : Target Op World) (F G : VCodeContainer Op) : Prop where
  lockstep : Lockstep M F G
  defs : KeepsDefs F G
  flags : KeepsFlags M F G

/-! ## When it is kept -/

/-- No dropped register is a branch argument, and no latch is fused under a condition
that sees how the subtraction came about. -/
structure Safe (F : VCodeContainer Op) : Prop where
  args : ∀ k d, Drops F k d → d ∉ F.branchBlockArgs
  latches : ∀ b l, latchAt F b = some (some l) →
    ∀ cond t e, F.inst (l.cmpIdx + 1) = .condBr cond t e →
    subsSafeCond cond = true ∨ l.imm.value = 0

/-- On some path from index `pc` of the block the flags that stand there are read before they
are set. -/
inductive FlagsLive (M : Target Op World) (F : VCodeContainer Op) : MirBlock → Nat → Prop
  | read {b : MirBlock} {pc : Nat} (reads : (F.inst pc).readsFlags = true) : FlagsLive M F b pc
  | next {b : MirBlock} {pc : Nat} (inside : F.InBlock b (pc + 1))
      (keeps : (F.inst pc).setsFlags M = false) (later : FlagsLive M F b (pc + 1)) :
      FlagsLive M F b pc
  | enter {b c : MirBlock} {pc : Nat} (ends : (F.inst pc).isTerm = true)
      (edge : c ∈ F.blockSuccs b) (later : FlagsLive M F c (F.start c)) : FlagsLive M F b pc

/-- The pass removes a comparison of the block. -/
def LosesCompare (F : VCodeContainer Op) (b : MirBlock) : Prop :=
  (∃ j, F.InBlock b j ∧ (tripleAt F j).isSome) ∨ ∃ l, latchAt F b = some (some l)

/-- What lowering sees to: a 32-bit product that is fused is no operand of a 64-bit sum, and
the flags of a comparison that is removed are not read behind its branch. -/
structure Fits (M : Target Op World) (F : VCodeContainer Op) : Prop where
  widths : ∀ k product lhs rhs op size dst x y, (pairAt F k).isSome →
    F.inst k = .aluRRR .mul .size32 product lhs rhs → F.inst (k + 1) = .aluRRR op size dst x y →
    size = .size32
  flags : ∀ b c, LosesCompare F b → c ∈ F.blockSuccs b → ¬ FlagsLive M F c (F.start c)

/-! ## The flags -/

section Flags

variable {M : Target Op World} {F G : VCodeContainer Op} {useCounts : Reg → Nat} {cond : Cond}
  {a b c fused : MInst Op}

/-- An in-block fusion computes what the original instruction did and answers the
condition as the comparison of the result would. -/
theorem FlagTriple.flags (triple : FlagTriple useCounts cond a b c fused) (ρ : Reg → Value)
    (f : Flags) (w : World) :
    ∃ size dst zero v, b = .cmpImm size dst zero ∧ a.defs = [dst] ∧ zero.value = 0 ∧
      a.results M ρ f w = some ([v], w) ∧
      cond.holds (fused.flagsAfter M ρ f w) = cond.holds (.ofSub (v.read size) 0) := by
  cases triple with
  | subs isZero safe =>
    refine ⟨_, _, _, _, rfl, rfl, isZero, rfl, ?_⟩
    rw [Value.read_written]
    exact subs_agrees safe _ _
  | tst isZero safe | ands isZero safe =>
    refine ⟨_, _, _, _, rfl, rfl, isZero, rfl, ?_⟩
    rw [Value.read_written]
    exact logical_agrees safe _

theorem FlagTriple.branch (triple : FlagTriple useCounts cond a b c fused) :
    ∃ t e, c = .condBr cond t e := by
  cases triple <;> exact ⟨_, _, rfl⟩

variable {done : MirBlock → Prop}

/-- A removed comparison was removed by one of the two flag rules. -/
theorem Combined.removed_compare (combined : Combined F G done) {k : Nat} {size : OperandSize}
    {lhs : Reg} {zero : Imm12} (compare : F.inst k = .cmpImm size lhs zero)
    (removed : G.inst k = .removed) :
    (∃ j fused, k = j + 1 ∧ tripleAt F j = some fused) ∨
      ∃ b l, done b ∧ latchAt F b = some (some l) ∧ k = l.cmpIdx := by
  obtain same | product | ⟨j, rfl, sum⟩ | first | ⟨j, next, second⟩ |
      ⟨b, l, isDone, found, position⟩ := combined.other k
  · rw [same, compare] at removed
    cases removed
  · obtain ⟨fused, found⟩ := Option.isSome_iff_exists.1 product
    have mac := (pairAt_cases found).isMac.1
    rw [compare] at mac
    cases mac
  · obtain ⟨fused, found⟩ := Option.isSome_iff_exists.1 sum
    have mac := (pairAt_cases found).isMac.2.1
    rw [compare] at mac
    cases mac
  · obtain ⟨fused, found⟩ := Option.isSome_iff_exists.1 first
    obtain ⟨cond, triple⟩ := tripleAt_cases found
    exact absurd compare (triple.compare.2 _ _ _)
  · obtain ⟨fused, found⟩ := Option.isSome_iff_exists.1 second
    exact .inl ⟨j, fused, next, found⟩
  · obtain ⟨lhs, cond, pred, latch⟩ := latchAt_isLatch found
    obtain rfl | rfl := position
    · rw [latch.sub] at compare
      cases compare
    · exact .inr ⟨b, l, isDone, found, rfl⟩

theorem keepsFlags_of_safe (verified : F.Verified) (combined : Combined F G done)
    (latches : ∀ b l, latchAt F b = some (some l) → ∀ cond t e,
      F.inst (l.cmpIdx + 1) = .condBr cond t e → subsSafeCond cond = true ∨ l.imm.value = 0) :
    KeepsFlags M F G := by
  intro b k size lhs zero cond t e inside compare branch removed j source ρ f w v w' computed
  obtain ⟨i, fused, rfl, found⟩ | ⟨c, l, isDone, found, rfl⟩ :=
    combined.removed_compare compare removed
  · -- an in-block fusion: its source is the instruction before the comparison
    obtain ⟨cond', triple⟩ := tripleAt_cases found
    have before : F.start b ≤ i := by
      by_contra outside
      have ends := verified.isTerm_before inside.1 (i := i) (by have := inside.2.1; omega)
      rw [triple.plain.1.1] at ends
      exact Bool.false_ne_true ends
    have here : j = i := by
      cases source with
      | inBlock next => omega
      | latch _ _ first => exact absurd (first i before (by omega)) triple.plain.1.2
    subst here
    obtain ⟨t', e', branch'⟩ := triple.branch
    rw [branch] at branch'
    cases branch'
    obtain ⟨size', dst, zero', v', compare', -, isZero, computed', agrees⟩ :=
      triple.flags (M := M) ρ f w
    rw [compare] at compare'
    cases compare'
    rw [computed] at computed'
    cases computed'
    rw [(combined.triple j fused found).1, agrees, Imm12.bits_of_zero isZero]
  · -- a latch: its source is the subtraction of the predecessor
    obtain ⟨lhs', cond', pred, latch⟩ := latchAt_isLatch found
    have same := verified.disjoint _ _ _ inside latch.inBlock
    subst same
    obtain ⟨zero', compare', isZero⟩ := latch.compare
    rw [compare] at compare'
    cases compare'
    have here : j = l.subIdx := by
      cases source with
      | inBlock next outside sets =>
        -- the instruction before the comparison is a tombstone
        have tombstone := latch.tombstones j outside (by omega)
        rw [combined.same_of_not_isFusible (by rw [tombstone]; rfl), tombstone] at sets
        cases sets
      | latch preds last first =>
        rw [latch.preds] at preds
        cases preds
        rw [latch.subIdx, last]
        omega
    subst here
    have agrees : ∀ a, cond.holds (.ofSub a (l.imm.bits l.size)) =
        cond.holds (.ofSub (a - l.imm.bits l.size) 0) :=
      (subs_agrees_iff l.size l.imm).2 (latches b l found cond t e branch)
    rw [latch.sub] at computed
    cases computed
    rw [(combined.latch b l isDone found).1, Imm12.bits_of_zero isZero, Value.read_written]
    exact agrees _

theorem safe_of_keepsFlags [Nonempty World] (combined : Combined F G fun b => b < F.numBlocks)
    (keeps : KeepsFlags M F G) (b : MirBlock) (l : Latch) (found : latchAt F b = some (some l))
    (cond : Cond) (t e : Label) (branch : F.inst (l.cmpIdx + 1) = .condBr cond t e) :
    subsSafeCond cond = true ∨ l.imm.value = 0 := by
  obtain ⟨lhs, cond', pred, latch⟩ := latchAt_isLatch found
  obtain ⟨zero, compare, isZero⟩ := latch.compare
  have ⟨sub, cmp⟩ := combined.latch b l latch.inBlock.1 found
  have w := Classical.arbitrary World
  apply (subs_agrees_iff l.size l.imm).1
  intro a
  have two := latch.two
  have agrees := keeps b l.cmpIdx l.size lhs zero cond t e latch.inBlock compare branch cmp l.subIdx
    (.latch latch.preds (by rw [latch.subIdx]; omega) latch.tombstones)
    (fun _ => Value.written a) ⟨false, false, false, false⟩ w _ _ (by rw [latch.sub]; rfl)
  rw [sub, Imm12.bits_of_zero isZero, Value.read_written] at agrees
  simpa only [MInst.flagsAfter, AluOp.eval, Value.read_written] using agrees

end Flags

/-! ## Running in lockstep -/

/-- At index `pc` the result has already dropped a comparison that the original is
still to make: it compares `r` with zero for a branch under `cond`. -/
inductive Pending (F : VCodeContainer Op) (b : MirBlock) (pc : Nat) :
    OperandSize → Reg → Cond → Prop
  | inBlock {j : Nat} {fused : MInst Op} {size : OperandSize} {dst : Reg} {zero : Imm12}
      {cond : Cond} {t e : Label} (found : tripleAt F j = some fused) (next : pc = j + 1)
      (compare : F.inst (j + 1) = .cmpImm size dst zero)
      (branch : F.inst (j + 2) = .condBr cond t e) : Pending F b pc size dst cond
  | leaving {c : MirBlock} {l : Latch} {lhs : Reg} {cond : Cond} {pred : MirBlock}
      (latch : IsLatch F c l lhs cond pred) (next : pc = l.subIdx + 1) :
      Pending F b pc l.size l.dst cond
  | testing {l : Latch} {lhs : Reg} {cond : Cond} {pred : MirBlock}
      (latch : IsLatch F b l lhs cond pred) (before : pc ≤ l.cmpIdx) :
        Pending F b pc l.size lhs cond

/-- The instruction is a multiplication whose result the registers hold. -/
def HoldsProduct (inst : MInst Op) (ρ : Reg → Value) : Prop :=
  ∀ size d l r, inst = .aluRRR .mul size d (.reg l) (.reg r) →
    ρ d = Value.written ((ρ l).read size * (ρ r).read size)

structure Rel (M : Target Op World) (F G : VCodeContainer Op) (s t : State World) : Prop
    extends Agree G s t where
  inside : F.InBlock s.block s.pc
  product : ∀ j, s.pc = j + 1 → F.start s.block ≤ j → (pairAt F j).isSome →
    HoldsProduct (F.inst j) s.regs
  pending : ∀ size r cond, Pending F s.block s.pc size r cond →
    cond.holds t.flags = cond.holds (.ofSub ((s.regs r).read size) 0)
  live : FlagsLive M F s.block s.pc → t.flags = s.flags ∨
    (∃ cond a e, F.inst s.pc = .condBr cond a e ∧ cond.holds t.flags = cond.holds s.flags) ∧
      LosesCompare F s.block

section Simulation

variable {M : Target Op World} {F G : VCodeContainer Op}

variable {x fused : MInst Op} {pc k : Nat} {l : Latch} {lhs r : Reg} {cond : Cond} {pred : MirBlock}
  {size : OperandSize} {s t : State World} {useCounts : Reg → Nat} {ρ ρ' : Reg → Value}

theorem setsFlags_of_isTerm (term : x.isTerm = true) : x.setsFlags M = false := by
  cases x <;> first | rfl | cases term

theorem FlagsLive.reads {b : MirBlock} (live : FlagsLive M F b pc)
    (sets : (F.inst pc).setsFlags M = true) : (F.inst pc).readsFlags = true := by
  cases live with
  | read reads => exact reads
  | next _ keeps =>
    rw [keeps] at sets
    cases sets
  | enter ends =>
    rw [setsFlags_of_isTerm ends] at sets
    cases sets

/-- The flags are not live before the test of a latch: its comparison sets them. -/
theorem IsLatch.not_flagsLive {b : MirBlock} (latch : IsLatch F b l lhs cond pred) :
    ¬ FlagsLive M F b (F.start b) := by
  obtain ⟨zero, compare, -⟩ := latch.compare
  have either {pc : Nat} (low : F.start b ≤ pc) (high : pc ≤ l.cmpIdx) :
      F.inst pc = .removed ∧ pc < l.cmpIdx ∨ pc = l.cmpIdx := by
    rcases Nat.lt_or_eq_of_le high with early | here
    · exact .inl ⟨latch.tombstones pc low early, early⟩
    · exact .inr here
  -- along the tombstones, up to the comparison
  have before {c : MirBlock} {pc : Nat} (live : FlagsLive M F c pc) (low : F.start b ≤ pc)
      (high : pc ≤ l.cmpIdx) : False := by
    induction live with
    | read reads =>
      rcases either low high with ⟨tombstone, -⟩ | rfl
      · rw [tombstone] at reads
        cases reads
      · rw [compare] at reads
        cases reads
    | next _ keeps _ ih =>
      rcases either low high with ⟨-, early⟩ | rfl
      · exact ih (Nat.le_succ_of_le low) early
      · rw [compare] at keeps
        cases keeps
    | enter ends =>
      rcases either low high with ⟨tombstone, -⟩ | rfl
      · rw [tombstone] at ends
        cases ends
      · rw [compare] at ends
        cases ends
  exact fun live => before live (le_refl _) latch.inBlock.2.1

/-- A comparison is owed behind an instruction because a flag rule rewrote that
instruction, or because it is a tombstone before a test. -/
theorem Pending.next {b : MirBlock} {pc : Nat} {size : OperandSize} {r : Reg} {cond : Cond}
    (pending : Pending F b (pc + 1) size r cond) (inside : F.InBlock b pc) :
    (∃ fused zero t e, tripleAt F pc = some fused ∧ F.inst (pc + 1) = .cmpImm size r zero ∧
      F.inst (pc + 2) = .condBr cond t e) ∨
    (∃ c l lhs pred, IsLatch F c l lhs cond pred ∧ pc = l.subIdx ∧ size = l.size ∧ r = l.dst) ∨
    F.inst pc = .removed ∧ Pending F b pc size r cond := by
  cases pending with
  | inBlock found next compare branch =>
    cases next
    exact .inl ⟨_, _, _, _, found, compare, branch⟩
  | leaving latch next => exact .inr (.inl ⟨_, _, _, _, latch, by omega, rfl, rfl⟩)
  | testing latch before =>
    exact .inr (.inr ⟨latch.tombstones pc inside.2.1 (by omega), .testing latch (by omega)⟩)

/-- Both sides move to the next instruction of the block.  The caller says what the
registers and flags become; the rest of the relation follows. -/
theorem Rel.advance (rel : Rel M F G s t) (verified : F.Verified)
    (plain : (F.inst s.pc).isTerm = false) (ρ ρ' : Reg → Value) (f f' : Flags) (w : World)
    (regs : ∀ r, Used G r → ρ' r = ρ r)
    (product : (pairAt F s.pc).isSome → HoldsProduct (F.inst s.pc) ρ)
    (pending : ∀ size r cond, Pending F s.block (s.pc + 1) size r cond →
    cond.holds f' = cond.holds (.ofSub ((ρ r).read size) 0))
    (live : FlagsLive M F s.block (s.pc + 1) → f' = f ∨
    (∃ cond a e, F.inst (s.pc + 1) = .condBr cond a e ∧ cond.holds f' = cond.holds f) ∧
      LosesCompare F s.block) :
    Rel M F G ⟨s.block, s.pc + 1, ρ, f, w⟩ ⟨t.block, t.pc + 1, ρ', f', w⟩ where
  block := rel.block
  pc := by rw [rel.pc]
  world := rfl
  regs := regs
  inside := verified.inBlock_succ rel.inside plain
  product := by
    intro j next _ found
    cases next
    exact product found
  pending := pending
  live := live

theorem step_plain (before : s.pc < F.stop s.block) (plain : (F.inst s.pc).isTerm = false) :
    F.step M s = ((F.inst s.pc).results M s.regs s.flags s.world).map fun out =>
      ⟨s.block, s.pc + 1, assign s.regs (F.inst s.pc).defs out.1,
        (F.inst s.pc).flagsAfter M s.regs s.flags s.world, out.2⟩ := by
  simp [step, before, plain]

theorem isFused_of_isFusible (fusible : isFusible x = true) : isFused x = false := by
  cases x <;> simp_all [isFusible, isFused]

theorem isTerm_of_isFused (fused : isFused x = true) : x.isTerm = false := by
  cases x <;> simp_all [isFused, MInst.isTerm]

variable {done : MirBlock → Prop}

theorem Combined.isTerm (combined : Combined F G done) (k : Nat) :
    (G.inst k).isTerm = (F.inst k).isTerm := by
  obtain same | ⟨fusible, fused⟩ := combined.forms k
  · rw [same]
  · rw [isTerm_of_isFused fused]
    by_contra term
    have term : (F.inst k).isTerm = true := by simpa using Ne.symm term
    rw [isFusible_of_isTerm term] at fusible
    exact Bool.false_ne_true fusible

/-- The reads of an instruction of the result agree. -/
theorem Rel.uses (rel : Rel M F G s t) :
    ∀ r ∈ (G.inst k).uses, t.regs r = s.regs r := fun r used => rel.regs r (.inl ⟨k, used⟩)

/-- An instruction that reads the flags and is no branch reads equal flags. -/
theorem Rel.flags_of_reads (rel : Rel M F G s t) (plain : (F.inst s.pc).isTerm = false)
    (reads : (F.inst s.pc).readsFlags = true) : t.flags = s.flags := by
  obtain same | ⟨⟨cond, a, e, branch, -⟩, -⟩ := rel.live (.read reads)
  · exact same
  · rw [branch] at plain
    cases plain

theorem Rel.live_next (rel : Rel M F G s t) (verified : F.Verified)
    (plain : (F.inst s.pc).isTerm = false) (keeps : (F.inst s.pc).setsFlags M = false)
    (live : FlagsLive M F s.block (s.pc + 1)) : t.flags = s.flags := by
  obtain same | ⟨⟨cond, a, e, branch, -⟩, -⟩ :=
    rel.live (.next (verified.inBlock_succ rel.inside plain) keeps live)
  · exact same
  · rw [branch] at plain
    cases plain

/-- No comparison is owed behind a live instruction that no flag rule rewrites. -/
theorem not_pending {b : MirBlock} (pending : Pending F b (pc + 1) size r cond)
    (inside : F.InBlock b pc) (noTriple : tripleAt F pc = none)
    (noLatch : ∀ c l lhs cond pred, IsLatch F c l lhs cond pred → pc ≠ l.subIdx) :
    F.inst pc = .removed ∧ Pending F b pc size r cond := by
  obtain ⟨fused, zero, t, e, found, -⟩ | ⟨c, l, lhs, pred, latch, here, -⟩ | owed :=
    pending.next inside
  · rw [noTriple] at found
    cases found
  · exact absurd here (noLatch _ _ _ _ _ latch)
  · exact owed

/-- An instruction that is left alone. -/
theorem Rel.step_same (rel : Rel M F G s t) (verified : F.Verified) (combined : Combined F G done)
    (all : ∀ b, b < F.numBlocks → done b) (plain : (F.inst s.pc).isTerm = false)
    (same : G.inst s.pc = F.inst s.pc) : Option.Rel (Rel M F G) (F.step M s) (G.step M t) := by
  have uses : ∀ r ∈ (F.inst s.pc).uses, t.regs r = s.regs r := by
    rw [← same]
    exact rel.uses
  have unfused : isFusible (F.inst s.pc) = true → isFused (G.inst s.pc) = false := by
    rw [same]
    exact isFused_of_isFusible
  rw [step_plain rel.inside.2.2 plain,
    step_plain (by rw [rel.block, rel.pc, combined.tables.stop]; exact rel.inside.2.2)
      (by rw [rel.pc, same]; exact plain), rel.pc, same, rel.world]
  rw [MInst.results_congr uses (rel.flags_of_reads plain)]
  cases computed : (F.inst s.pc).results M s.regs s.flags s.world with
  | none => exact .none
  | some out =>
    have next := rel.advance verified plain (assign s.regs (F.inst s.pc).defs out.1)
      (assign t.regs (F.inst s.pc).defs out.1) ((F.inst s.pc).flagsAfter M s.regs s.flags s.world)
      ((F.inst s.pc).flagsAfter M t.regs t.flags s.world) out.2 ?_ ?_ ?_ ?_
    · rw [rel.pc] at next
      exact .some next
    · intro r used
      exact assign_congr (rel.regs r used) _ _
    · intro found
      obtain ⟨fused, found⟩ := Option.isSome_iff_exists.1 found
      have forms := unfused (pairAt_cases found).forms.1.1
      rw [(combined.pair _ fused found).1] at forms
      cases forms
    · intro size r cond pending
      have noTriple : tripleAt F s.pc = none := by
        by_contra found
        obtain ⟨fused, found⟩ := Option.ne_none_iff_exists'.1 found
        obtain ⟨cond, triple⟩ := tripleAt_cases found
        have forms := unfused triple.forms.1.1
        rw [(combined.triple _ fused found).1, triple.forms.1.2.2] at forms
        cases forms
      have noLatch : ∀ c l lhs cond pred, IsLatch F c l lhs cond pred → s.pc ≠ l.subIdx := by
        intro c l lhs cond pred latch here
        have rewritten :=
          (combined.latch c l (all c latch.inBlock.1) (latchAt_of_isLatch latch)).1
        rw [← here, same, here, latch.sub] at rewritten
        cases rewritten
      have owed := not_pending pending rel.inside noTriple noLatch
      rw [owed.1] at computed
      cases computed
      simpa [owed.1, MInst.defs, assign, MInst.flagsAfter] using rel.pending size r cond owed.2
    · intro live
      refine .inl ?_
      by_cases sets : (F.inst s.pc).setsFlags M = true
      · exact MInst.flagsAfter_congr uses (rel.flags_of_reads plain) sets
      · have keeps : (F.inst s.pc).setsFlags M = false := by simpa using sets
        rw [MInst.flagsAfter_of_not_sets keeps, MInst.flagsAfter_of_not_sets keeps]
        exact rel.live_next verified plain keeps live

/-- The step of the result at an instruction the original does not branch at. -/
theorem Rel.step_target (rel : Rel M F G s t) (combined : Combined F G done)
    (plain : (F.inst s.pc).isTerm = false) :
    G.step M t = ((G.inst s.pc).results M t.regs t.flags s.world).map fun out =>
      ⟨t.block, t.pc + 1, assign t.regs (G.inst s.pc).defs out.1,
        (G.inst s.pc).flagsAfter M t.regs t.flags s.world, out.2⟩ := by
  rw [step_plain (by rw [rel.block, rel.pc, combined.tables.stop]; exact rel.inside.2.2)
    (by rw [rel.pc, combined.isTerm]; exact plain), rel.pc, rel.world]

theorem isMac_not_latch {c : MirBlock} (mac : isMac (F.inst k) = true)
    (latch : IsLatch F c l lhs cond pred) : k ≠ l.subIdx := by
  rintro rfl
  rw [latch.sub] at mac
  cases mac

theorem isMac_not_triple (mac : isMac (F.inst k) = true) : tripleAt F k = none := by
  by_contra found
  obtain ⟨fused, found⟩ := Option.ne_none_iff_exists'.1 found
  obtain ⟨cond, triple⟩ := tripleAt_cases found
  rw [triple.not_isMac.1] at mac
  exact Bool.false_ne_true mac

/-- The original computes a product that the result has dropped. -/
theorem Rel.step_product (rel : Rel M F G s t) (verified : F.Verified)
    (combined : Combined F G done) (args : ∀ k d, Drops F k d → d ∉ F.branchBlockArgs)
    (found : pairAt F s.pc = some fused) : Option.Rel (Rel M F G) (F.step M s) (G.step M t) := by
  have pair := pairAt_cases found
  have plain := pair.plain.1
  obtain ⟨mulSize, d, l, r, mul⟩ := pair.mul
  have drops : Drops F s.pc d := ⟨by simp [mul, MInst.defs], .inl (by simp [found])⟩
  have unused : ¬ Used G d := by
    rintro (⟨k, used⟩ | isArg)
    · exact combined.unused drops k used
    · rw [combined.tables.branchBlockArgs] at isArg
      exact args _ _ drops isArg
  have notRead : ∀ x ∈ (F.inst s.pc).uses, x ≠ d := by
    rintro x used rfl
    have := user_unique drops.once.1 used drops.once.2
    omega
  have keeps : (F.inst s.pc).setsFlags M = false := by rw [mul]; rfl
  rw [step_plain rel.inside.2.2 plain, rel.step_target combined plain, (combined.pair _ _ found).1]
  rw [mul] at notRead ⊢
  refine .some (rel.advance verified plain _ _ _ _ _ ?_ ?_ ?_ ?_)
  · intro x used
    have other : x ≠ d := fun same => unused (same ▸ used)
    simp [MInst.defs, assign, other, rel.regs x used]
  · intro _ size d' l' r' same
    rw [mul] at same
    cases same
    have left : l ≠ d := notRead l (by simp [MInst.uses, RegOrZr.regs])
    have right : r ≠ d := notRead r (by simp [MInst.uses, RegOrZr.regs])
    simp [MInst.defs, assign, left, right, RegOrZr.read, AluOp.eval]
  · intro size x cond pending
    have mac : isMac (F.inst s.pc) = true := by rw [mul]; rfl
    have owed :=
      not_pending pending rel.inside (isMac_not_triple mac) fun _ _ _ _ _ => isMac_not_latch mac
    rw [mul] at owed
    cases owed.1
  · intro live
    exact .inl (rel.live_next verified plain keeps live)

/-- An instruction that is not wider than a product reads it as the product of what
it reads of the factors. -/
theorem read_product {mulSize : OperandSize} (u v : Value)
    (fits : mulSize = .size32 → size = .size32) :
    (Value.written (u.read mulSize * v.read mulSize)).read size = u.read size * v.read size := by
  have narrow : size.bits ≤ mulSize.bits := by
    cases mulSize with
    | size32 => rw [fits rfl]
    | size64 => cases size <;> decide
  have bound : mulSize.bits ≤ 128 := by cases mulSize <;> decide
  apply BitVec.eq_of_toNat_eq
  have divides : 2 ^ size.bits ∣ 2 ^ mulSize.bits := pow_dvd_pow 2 narrow
  have divides' : 2 ^ size.bits ∣ 2 ^ 128 := pow_dvd_pow 2 (narrow.trans bound)
  simp only [Value.read, Value.written, BitVec.toNat_setWidth, BitVec.toNat_mul]
  rw [Nat.mod_mod_of_dvd _ divides', Nat.mod_mod_of_dvd _ divides, Nat.mul_mod,
    Nat.mod_mod_of_dvd _ divides, Nat.mod_mod_of_dvd _ divides]

theorem MacPair.results {a b : MInst Op} (pair : MacPair useCounts a b fused)
    (same : ∀ x ∈ fused.uses, ρ' x = ρ x) (holds : HoldsProduct a ρ)
    (fits : ∀ product lhs rhs op size dst x y, a = .aluRRR .mul .size32 product lhs rhs →
    b = .aluRRR op size dst x y → size = .size32)
    (f f' : Flags) (w : World) :
    ∃ v, b.results M ρ f w = some ([v], w) ∧ fused.results M ρ' f' w = some ([v], w) ∧
      b.setsFlags M = false ∧ fused.setsFlags M = false := by
  have narrow : ∀ mulSize op size product lhs rhs dst x y,
      a = .aluRRR .mul mulSize product lhs rhs →
      b = .aluRRR op size dst x y → mulSize = .size32 → size = .size32 := by
    rintro mulSize op size product lhs rhs dst x y first second rfl
    exact fits _ _ _ _ _ _ _ _ first second
  cases pair with
  | addLeft once =>
    have product := holds _ _ _ _ rfl
    simp only [MInst.uses, List.mem_cons, List.not_mem_nil, or_false, forall_eq_or_imp,
      forall_eq] at same
    refine ⟨_, rfl, ?_, rfl, rfl⟩
    simp only [MInst.results, RegOrZr.read, AluOp.eval, product,
      read_product _ _ (narrow _ _ _ _ _ _ _ _ _ rfl rfl), same.1, same.2.1, same.2.2]
    rw [BitVec.add_comm]
  | addRight once | sub once =>
    have product := holds _ _ _ _ rfl
    simp only [MInst.uses, List.mem_cons, List.not_mem_nil, or_false, forall_eq_or_imp,
      forall_eq] at same
    refine ⟨_, rfl, ?_, rfl, rfl⟩
    simp only [MInst.results, RegOrZr.read, AluOp.eval, product,
      read_product _ _ (narrow _ _ _ _ _ _ _ _ _ rfl rfl), same.1, same.2.1, same.2.2]

/-- The original adds or subtracts the product, the result does both at once. -/
theorem Rel.step_sum (rel : Rel M F G s t) (verified : F.Verified) (combined : Combined F G done)
    (fits : Fits M F) {j : Nat} (next : s.pc = j + 1) (found : pairAt F j = some fused) :
    Option.Rel (Rel M F G) (F.step M s) (G.step M t) := by
  have pair := pairAt_cases found
  have mac : isMac (F.inst s.pc) = true := by rw [next]; exact pair.isMac.2.1
  have plain : (F.inst s.pc).isTerm = false := by
    generalize F.inst s.pc = x at mac
    cases x <;> simp_all [isMac, MInst.isTerm]
  have inside := rel.inside
  have before : F.start s.block ≤ j := by
    by_contra outside
    have ends := verified.isTerm_before inside.1 (i := j) (by have := inside.2.1; omega)
    rw [pair.plain.1] at ends
    exact Bool.false_ne_true ends
  have rewritten := (combined.pair j fused found).2
  rw [← next] at rewritten
  have uses : ∀ x ∈ fused.uses, t.regs x = s.regs x := by
    rw [← rewritten]
    exact rel.uses
  have widths := fun product lhs rhs op size dst x y =>
    fits.widths j product lhs rhs op size dst x y (by simp [found])
  obtain ⟨v, computed, computed', keeps, keeps'⟩ := pair.results (M := M) uses
    (rel.product j next before (by simp [found])) widths s.flags t.flags s.world
  rw [← next] at computed keeps
  have defs : (F.inst s.pc).defs = fused.defs := by rw [next, pair.defs.2]
  rw [step_plain inside.2.2 plain, rel.step_target combined plain, rewritten, computed, computed']
  refine .some (rel.advance verified plain _ _ _ _ _ ?_ ?_ ?_ ?_)
  · intro x used
    rw [defs]
    exact assign_congr (rel.regs x used) _ _
  · intro again
    obtain ⟨fused', again⟩ := Option.isSome_iff_exists.1 again
    rw [next] at again
    exact absurd (pairAt_cases again) pair.not_next
  · intro size x cond pending
    have owed :=
      not_pending pending inside (isMac_not_triple mac) fun _ _ _ _ _ => isMac_not_latch mac
    rw [owed.1] at computed
    cases computed
  · intro live
    rw [MInst.flagsAfter_of_not_sets keeps, MInst.flagsAfter_of_not_sets keeps']
    exact .inl (rel.live_next verified plain keeps live)

/-- The fused form writes what the original does, or drops a register nobody reads. -/
theorem FlagTriple.results {a b c : MInst Op} (triple : FlagTriple useCounts cond a b c fused)
    (same : ∀ x ∈ fused.uses, ρ' x = ρ x) (f f' : Flags) (w : World) :
    ∃ v vs, a.results M ρ f w = some ([v], w) ∧ fused.results M ρ' f' w = some (vs, w) ∧
      (fused.defs = a.defs ∧ vs = [v] ∨ vs = [] ∧
        ∃ size src imm, fused = .tstRRImmLogic size src imm) ∧
      fused.flagsAfter M ρ' f' w = fused.flagsAfter M ρ f w := by
  have flags : fused.setsFlags M = true ∧ fused.readsFlags = false := by
    cases triple <;> exact ⟨rfl, rfl⟩
  have agrees : fused.flagsAfter M ρ' f' w = fused.flagsAfter M ρ f w :=
    MInst.flagsAfter_congr same (by simp [flags.2]) flags.1
  cases triple with
  | subs | ands =>
    refine ⟨_, _, rfl, rfl, .inl ⟨rfl, ?_⟩, agrees⟩
    have results : MInst.results M _ ρ' f' w = MInst.results M _ ρ f' w :=
      MInst.results_congr same (fun _ => rfl)
    simpa [MInst.results, AluOp.eval] using results
  | tst => exact ⟨_, _, rfl, rfl, .inr ⟨rfl, _, _, _, rfl⟩, agrees⟩

section

variable (rel : Rel M F G s t) (verified : F.Verified)
include rel verified

/-- The original computes, the result also sets the flags. -/
theorem Rel.step_first (combined : Combined F G done)
    (args : ∀ k d, Drops F k d → d ∉ F.branchBlockArgs) (found : tripleAt F s.pc = some fused) :
    Option.Rel (Rel M F G) (F.step M s) (G.step M t) := by
  obtain ⟨cond, triple⟩ := tripleAt_cases found
  have plain := triple.plain.1.1
  have rewritten := (combined.triple _ _ found).1
  have uses : ∀ x ∈ fused.uses, t.regs x = s.regs x := by
    rw [← rewritten]
    exact rel.uses
  obtain ⟨v, vs, computed, computed', writes, flags⟩ :=
    triple.results (M := M) uses s.flags t.flags s.world
  obtain ⟨size, dst, zero, v', compare, only, isZero, computedAgain, agrees⟩ :=
    triple.flags (M := M) s.regs s.flags s.world
  cases computed.symm.trans computedAgain
  obtain ⟨a, e, branch⟩ := triple.branch
  rw [step_plain rel.inside.2.2 plain, rel.step_target combined plain, rewritten, computed,
    computed']
  refine .some (rel.advance verified plain _ _ _ _ _ ?_ ?_ ?_ ?_)
  · intro x used
    obtain ⟨defs, rfl⟩ | ⟨rfl, size, src, imm, rfl⟩ := writes
    · rw [defs]
      exact assign_congr (rel.regs x used) _ _
    · have other : x ≠ dst := by
        rintro rfl
        have drops : Drops F s.pc x := ⟨by simp [only], .inr ⟨_, _, _, found⟩⟩
        obtain ⟨k, isUse⟩ | isArg := used
        · exact combined.unused drops k isUse
        · rw [combined.tables.branchBlockArgs] at isArg
          exact args _ _ drops isArg
      rw [only]
      simp [MInst.defs, assign, other, rel.regs x used]
  · intro again
    obtain ⟨fused', again⟩ := Option.isSome_iff_exists.1 again
    have mac := (pairAt_cases again).isMac.1
    rw [triple.not_isMac.1] at mac
    cases mac
  · intro size' r cond' pending
    obtain ⟨fused', zero', a', e', found', compare', branch'⟩ | ⟨c, l, lhs, pred, latch, here, -⟩ |
      owed := pending.next rel.inside
    · rw [compare] at compare'
      cases compare'
      rw [branch] at branch'
      cases branch'
      rw [flags, agrees, only]
      simp [assign]
    · have untouched := latch.untouched verified.toLayout (.inl here)
      rw [found] at untouched
      cases untouched.2.1
    · exact absurd owed.1 triple.plain.1.2
  · intro live
    have reads := live.reads (by rw [compare]; rfl)
    rw [compare] at reads
    cases reads

/-- The original compares, the result has set the flags already. -/
theorem Rel.step_compare (combined : Combined F G done) {zero : Imm12} {a e : Label}
    (compare : F.inst s.pc = .cmpImm size r zero) (isZero : zero.value = 0)
    (branch : F.inst (s.pc + 1) = .condBr cond a e) (removed : G.inst s.pc = .removed)
    (pending : Pending F s.block s.pc size r cond) (loses : LosesCompare F s.block) :
    Option.Rel (Rel M F G) (F.step M s) (G.step M t) := by
  have plain : (F.inst s.pc).isTerm = false := by rw [compare]; rfl
  rw [step_plain rel.inside.2.2 plain, rel.step_target combined plain, removed, compare]
  refine .some (rel.advance verified plain _ _ _ _ _ ?_ ?_ ?_ ?_)
  · intro x used
    exact rel.regs x used
  · intro again
    obtain ⟨fused, again⟩ := Option.isSome_iff_exists.1 again
    have mac := (pairAt_cases again).isMac.1
    rw [compare] at mac
    cases mac
  · intro size' r' cond' pending'
    obtain ⟨fused, zero', a', e', found, -⟩ | ⟨c, l, lhs, pred, latch, here, -⟩ | owed :=
      pending'.next rel.inside
    · obtain ⟨cond'', triple⟩ := tripleAt_cases found
      exact absurd compare (triple.compare.2 _ _ _)
    · rw [here, latch.sub] at compare
      cases compare
    · rw [compare] at owed
      cases owed.1
  · intro _
    refine .inr ⟨⟨cond, a, e, branch, ?_⟩, loses⟩
    have agrees := rel.pending size r cond pending
    simpa [MInst.flagsAfter, Imm12.bits_of_zero isZero] using agrees

/-- The subtraction at the end of a latch. -/
theorem Rel.step_latch (combined : Combined F G fun b => b < F.numBlocks) (safe : Safe F)
    {b : MirBlock} (found : latchAt F b = some (some l)) (here : s.pc = l.subIdx) :
    Option.Rel (Rel M F G) (F.step M s) (G.step M t) := by
  obtain ⟨lhs, cond, pred, latch⟩ := latchAt_isLatch found
  have sub := latch.sub
  rw [← here] at sub
  have rewritten := (combined.latch b l latch.inBlock.1 found).1
  rw [← here] at rewritten
  have plain : (F.inst s.pc).isTerm = false := by rw [sub]; rfl
  have src : t.regs l.src = s.regs l.src :=
    rel.uses (k := s.pc) l.src (by simp [rewritten, MInst.uses])
  rw [step_plain rel.inside.2.2 plain, rel.step_target combined plain, rewritten, sub]
  refine .some (rel.advance verified plain _ _ _ _ _ ?_ ?_ ?_ ?_)
  · intro x used
    simp only [src]
    exact assign_congr (rel.regs x used) _ _
  · intro again
    obtain ⟨fused, again⟩ := Option.isSome_iff_exists.1 again
    have mac := (pairAt_cases again).isMac.1
    rw [sub] at mac
    cases mac
  · intro size r cond' pending
    obtain ⟨fused, zero, a, e, triple, -⟩ | ⟨c, l', lhs', pred', latch', here', rfl, rfl⟩ | owed :=
      pending.next rel.inside
    · have untouched := latch.untouched verified.toLayout (.inl here)
      rw [triple] at untouched
      cases untouched.2.1
    · -- two latches with one subtraction are the same
      have jump := latch'.jump_next
      rw [← here', here, latch.jump_next] at jump
      cases jump
      cases found.symm.trans (latchAt_of_isLatch latch')
      obtain ⟨a, e, branch⟩ := latch'.branch
      have agrees := (subs_agrees_iff l.size l.imm).2 (safe.latches b l found cond' a e branch)
      simpa [MInst.flagsAfter, MInst.defs, assign, AluOp.eval, src] using
        agrees ((s.regs l.src).read l.size)
    · rw [sub] at owed
      cases owed.1
  · intro live
    -- the jump behind the subtraction reads no flags, and the test sets them again
    have next := latch.jump_next
    rw [← here] at next
    have inside := verified.inBlock_succ rel.inside plain
    have last := verified.eq_last inside (by rw [next]; rfl)
    cases live with
    | read reads =>
      rw [next] at reads
      cases reads
    | next inside' =>
      have := inside'.2.2
      omega
    | @enter _ c _ _ edge later =>
      have targets := verified.succs _ inside.1
      rw [← last, next] at targets
      have isTarget : Label.block c ∈ (MInst.jump (.block b) : MInst Op).targets :=
        targets ▸ List.mem_map_of_mem edge
      cases List.mem_singleton.1 isTarget
      exact absurd later latch.not_flagsLive

/-- A branch: both sides choose the same edge and pass the same arguments. -/
theorem Rel.step_branch (combined : Combined F G done) (fits : Fits M F)
    (term : (F.inst s.pc).isTerm = true) : Option.Rel (Rel M F G) (F.step M s) (G.step M t) := by
  have same := combined.same_of_not_isFusible (isFusible_of_isTerm term)
  have uses : ∀ r ∈ (F.inst s.pc).uses, t.regs r = s.regs r := by
    rw [← same]
    exact rel.uses
  have inside := rel.inside
  have last := verified.eq_last inside term
  -- the edge is the same, also where only the condition agrees
  have edge : (F.inst s.pc).branch t.regs t.flags = (F.inst s.pc).branch s.regs s.flags := by
    by_cases reads : (F.inst s.pc).readsFlags = true
    · obtain flags | ⟨⟨cond, a, e, branch, agrees⟩, -⟩ := rel.live (.read reads)
      · exact MInst.branch_congr uses fun _ => flags
      · rw [branch]
        simp only [MInst.branch, agrees]
    · exact MInst.branch_congr uses fun h => absurd h reads
  have sourceStep : F.step M s = ((F.inst s.pc).branch s.regs s.flags).bind (F.goto s) := by
    simp [step, inside.2.2, term]
  have targetStep : G.step M t = ((F.inst s.pc).branch s.regs s.flags).bind (G.goto t) := by
    have before : t.pc < G.stop t.block := by
      rw [rel.block, rel.pc, combined.tables.stop]
      exact inside.2.2
    rw [step, if_pos before, rel.pc, same, if_pos term, edge]
  rw [sourceStep, targetStep]
  cases taken : (F.inst s.pc).branch s.regs s.flags with
  | none => exact .none
  | some target =>
    obtain ⟨label, k⟩ := target
    cases label with
    | external symbol => exact .none
    | block c =>
      have block := inside.1
      have position : (F.blockSuccs s.block)[k]? = some c := by
        have targets := MInst.targets_of_branch taken
        rw [last, verified.succs _ block, List.getElem?_map] at targets
        obtain ⟨c', found, same⟩ := Option.map_eq_some_iff.1 targets
        cases same
        exact found
      obtain ⟨known, isPred⟩ := verified.preds _ c block (List.mem_of_getElem? position)
      have bounds := verified.bounded c known
      have args : (G.branchBlockparams t.block k).map t.regs =
          (F.branchBlockparams s.block k).map s.regs := by
        rw [rel.block, combined.tables.branchBlockparams]
        refine List.map_congr_left fun r isArg => rel.regs r (.inr ?_)
        rw [combined.tables.branchBlockArgs]
        exact mem_branchBlockArgs isArg
      refine .some ?_
      constructor
      · refine ⟨rfl, combined.tables.start c, rel.world, ?_⟩
        intro r used
        simp only [args, combined.tables.blockParams]
        exact assign_congr (rel.regs r used) _ _
      · exact ⟨known, le_refl _, bounds.1⟩
      · intro j next before
        simp only at next before
        omega
      · intro size r cond pending
        cases pending with
        | inBlock found next =>
          obtain ⟨cond, triple⟩ := tripleAt_cases found
          have ends := verified.isTerm_before known next
          rw [triple.plain.1.1] at ends
          cases ends
        | leaving latch next =>
          have ends := verified.isTerm_before known next
          rw [latch.sub] at ends
          cases ends
        | testing latch before =>
          -- the test is entered from its latch, which passes the compared value
          rename_i l pred
          rw [latch.preds, List.mem_singleton] at isPred
          obtain ⟨i, param, passed⟩ := latch.param
          have two := latch.two
          have here : s.pc = l.subIdx + 1 := by
            rw [latch.subIdx, last, isPred]
            omega
          have first : k = 0 := by
            rw [here, latch.jump_next] at taken
            cases taken
            rfl
          subst first
          have agrees := rel.pending _ _ _ (.leaving latch here)
          have value : assign s.regs (F.blockParams c)
              ((F.branchBlockparams s.block 0).map s.regs) r = s.regs l.dst :=
            assign_idxOf? param (by rw [isPred, List.getElem?_map, passed]; rfl)
          simpa only [value] using agrees
      · intro live
        have edge : c ∈ F.blockSuccs s.block := List.mem_of_getElem? position
        obtain flags | ⟨-, loses⟩ := rel.live (.enter term edge live)
        · exact .inl flags
        · exact absurd live (fits.flags _ c loses edge)

end

theorem Rel.step {s t : State World} (rel : Rel M F G s t) (verified : F.Verified)
    (combined : Combined F G fun b => b < F.numBlocks) (safe : Safe F) (fits : Fits M F) :
    Option.Rel (Rel M F G) (F.step M s) (G.step M t) := by
  by_cases term : (F.inst s.pc).isTerm = true
  · exact rel.step_branch verified combined fits term
  have plain : (F.inst s.pc).isTerm = false := by simpa using term
  obtain same | product | ⟨j, next, sum⟩ | first | ⟨j, next, second⟩ |
      ⟨b, l, isBlock, found, position⟩ := combined.other s.pc
  · exact rel.step_same verified combined (fun _ h => h) plain same
  · obtain ⟨fused, found⟩ := Option.isSome_iff_exists.1 product
    exact rel.step_product verified combined safe.args found
  · obtain ⟨fused, found⟩ := Option.isSome_iff_exists.1 sum
    exact rel.step_sum verified combined fits next found
  · obtain ⟨fused, found⟩ := Option.isSome_iff_exists.1 first
    exact rel.step_first verified combined safe.args found
  · obtain ⟨fused, found⟩ := Option.isSome_iff_exists.1 second
    obtain ⟨cond, triple⟩ := tripleAt_cases found
    obtain ⟨size, dst, zero, v, compare, -, isZero, -⟩ :=
      triple.flags (M := M) s.regs s.flags s.world
    obtain ⟨a, e, branch⟩ := triple.branch
    have removed := (combined.triple j fused found).2
    rw [← next] at removed
    have compareHere := compare
    have branchHere := branch
    rw [← next] at compareHere
    rw [← show s.pc + 1 = j + 2 by omega] at branchHere
    have before : F.start s.block ≤ j := by
      by_contra outside
      have ends := verified.isTerm_before rel.inside.1 (i := j) (by have := rel.inside.2.1; omega)
      rw [triple.plain.1.1] at ends
      cases ends
    have here : F.InBlock s.block j := ⟨rel.inside.1, before, by have := rel.inside.2.2; omega⟩
    exact rel.step_compare verified combined compareHere isZero branchHere removed
      (.inBlock found next compare branch) (.inl ⟨j, here, by rw [found]; rfl⟩)
  · obtain ⟨lhs, cond, pred, latch⟩ := latchAt_isLatch found
    obtain here | here := position
    · exact rel.step_latch verified combined safe found here
    · obtain ⟨zero, compare, isZero⟩ := latch.compare
      obtain ⟨a, e, branch⟩ := latch.branch
      have block := verified.disjoint _ _ _ rel.inside (here ▸ latch.inBlock)
      have removed := (combined.latch b l isBlock found).2
      rw [← here] at removed compare branch
      exact rel.step_compare verified combined compare isZero branch removed
        (.testing (block ▸ latch) (le_of_eq here)) (.inr ⟨l, block ▸ found⟩)

theorem rel_initial (verified : F.Verified) (combined : Combined F G done) (ρ : Reg → Value)
    (f : Flags) (w : World) : Rel M F G (F.initial ρ f w) (G.initial ρ f w) := by
  obtain ⟨known, start, noParams⟩ := verified.entry
  constructor
  · exact ⟨rfl, combined.tables.start 0, rfl, fun _ _ => rfl⟩
  · exact ⟨known, le_refl _, (verified.bounded 0 known).1⟩
  · intro j next
    simp only [initial, start] at next
    omega
  · intro size r cond pending
    cases pending with
    | inBlock _ next | leaving _ next =>
      simp only [initial, start] at next
      omega
    | testing latch before =>
      obtain ⟨k, position, -⟩ := latch.param
      simp only [initial, noParams, List.idxOf?_nil] at position
      cases position
  · exact fun _ => .inl rfl

theorem lockstep (verified : F.Verified) (combined : Combined F G fun b => b < F.numBlocks)
    (safe : Safe F) (fits : Fits M F) : Lockstep M F G := by
  intro ρ f w n
  have runs : Option.Rel (Rel M F G) (F.run M n (F.initial ρ f w))
      (G.run M n (G.initial ρ f w)) := by
    induction n with
    | zero => exact .some (rel_initial verified combined ρ f w)
    | succ n ih =>
      simp only [run]
      generalize F.run M n (F.initial ρ f w) = s at ih
      generalize G.run M n (G.initial ρ f w) = t at ih
      cases ih with
      | none => exact .none
      | some rel => exact rel.step verified combined safe fits
  generalize F.run M n (F.initial ρ f w) = s at runs
  generalize G.run M n (G.initial ρ f w) = t at runs
  cases runs with
  | none => exact .none
  | some rel => exact .some rel.toAgree

end Simulation

/-- The pass finishes on every verified function.  What it keeps of its meaning
includes the dropped definitions and the conditions of the fused latches, and
these are all that can go wrong where the fused pairs have one width and nothing
else reads the flags of a removed comparison. -/
theorem peephole_preserves_iff [Nonempty World] (M : Target Op World) {F : VCodeContainer Op}
    (verified : F.Verified) :
    ∃ G changed, peepholeCombine F = some (G, changed) ∧
      (Preserves M F G → Safe F) ∧ (Safe F ∧ Fits M F → Preserves M F G) := by
  obtain ⟨G, changed, ran, combined⟩ := combined_peepholeCombine verified
  refine ⟨G, changed, ran, ?_, ?_⟩
  · intro keeps
    exact ⟨(keepsDefs_iff verified combined).1 keeps.defs, safe_of_keepsFlags combined keeps.flags⟩
  · rintro ⟨safe, fits⟩
    exact ⟨lockstep verified combined safe fits, (keepsDefs_iff verified combined).2 safe.args,
      keepsFlags_of_safe verified combined safe.latches⟩

/-! ## Two functions that are changed, and one that is not -/

/-- Loading a constant, the only other form in the functions below. -/
def constants : Target Value Unit := ⟨fun v _ w => some ([v], w), fun _ => none⟩

def int (i : Nat) : Reg := ⟨192 + i, .int⟩

/-- A product that is an operand of the next sum and an argument of the branch. -/
def productPassed : VCodeContainer Value where
  insts := [.other 2 [] [int 0], .other 3 [] [int 1],
    .aluRRR .mul .size32 (int 2) (.reg (int 0)) (.reg (int 1)),
    .aluRRR .add .size32 (int 3) (.reg (int 2)) (.reg (int 0)), .jump (.block 1),
    .other 0 [int 4, int 5] [], .ret]
  blockRange := [(0, 5), (5, 7)]
  blockSucc := [[1], []]
  blockPred := [[], [0]]
  params := [[], [int 4, int 5]]
  branchArgs := [[[int 2, int 3]], []]

/-- A latch whose subtraction the test compares with zero under the given condition. -/
def latchTest (cond : Cond) : VCodeContainer Value where
  insts :=
    [.other 0x80000000 [] [int 0], .aluRRImm12 .sub .size32 (int 1) (int 0) ⟨1, false, by decide⟩,
    .jump (.block 1), .cmpImm .size32 (int 2) ⟨0, false, by decide⟩,
    .condBr cond (.block 2) (.block 3), .ret, .ret]
  blockRange := [(0, 3), (3, 5), (5, 6), (6, 7)]
  blockSucc := [[1], [2, 3], [], []]
  blockPred := [[], [0], [1], [1]]
  params := [[], [int 2], [], []]
  branchArgs := [[[int 1]], [[], []], [], []]

theorem verified_productPassed : productPassed.Verified :=
  verified_of_checked [[0], [0, 1]] (by decide) (by decide) (by decide)

theorem verified_latchTest (cond : Cond) : (latchTest cond).Verified :=
  verified_of_checked [[0], [0, 1], [0, 1, 2], [0, 1, 3]] (by cases cond <;> decide)
    (by cases cond <;> decide) (by cases cond <;> decide)

theorem safe_latchTest : Safe (latchTest .ne) where
  args := by
    rintro k d ⟨isDef, dropped⟩
    have inside : k < 7 := by
      by_contra out
      rw [inst_of_le (by simpa [latchTest] using out)] at isDef
      cases isDef
    have noRule : ∀ k < 7, pairAt (latchTest .ne) k = none ∧ tripleAt (latchTest .ne) k = none := by
      decide
    simp [noRule k inside] at dropped
  latches := by
    intro b l _ cond t e branch
    have conditions : ∀ k < 7, ∀ cond t e, (latchTest .ne).inst k = .condBr cond t e →
        cond = .ne := by
      intro k inside cond t e branch
      interval_cases k <;> cases branch
      rfl
    rw [conditions _ ?_ cond t e branch]
    · exact .inl rfl
    · by_contra out
      rw [inst_of_le (by simpa [latchTest] using out)] at branch
      cases branch

theorem fits_latchTest : Fits constants (latchTest .ne) where
  widths := by
    intro k product lhs rhs op size dst x y _ mul
    have inside : k < 7 := by
      by_contra out
      rw [inst_of_le (by simpa [latchTest] using out)] at mul
      cases mul
    interval_cases k <;> cases mul
  flags := by
    rintro b c - edge live
    have known : c = 1 ∨ c = 2 ∨ c = 3 := by
      have succs : ∀ b < 4, ∀ c ∈ (latchTest .ne).blockSuccs b, c = 1 ∨ c = 2 ∨ c = 3 := by decide
      by_contra other
      have outside : 4 ≤ b := Nat.le_of_not_lt fun inside => other (succs b inside c edge)
      have absent : (latchTest .ne).blockSucc[b]? = none :=
        List.getElem?_eq_none (by simpa [latchTest] using outside)
      rw [blockSuccs, List.getD_eq_getElem?_getD, absent] at edge
      cases edge
    -- the test compares before it branches, and the two blocks behind it only return
    have returns {c : MirBlock} (ret : (latchTest .ne).inst ((latchTest .ne).start c) = .ret)
        (final : (latchTest .ne).blockSuccs c = [])
        (single : (latchTest .ne).stop c ≤ (latchTest .ne).start c + 1)
        (live : FlagsLive constants (latchTest .ne) c ((latchTest .ne).start c)) : False := by
      cases live with
      | read reads =>
        rw [ret] at reads
        cases reads
      | next inside => exact absurd inside.2.2 (Nat.not_lt.2 single)
      | enter _ edge =>
        rw [final] at edge
        cases edge
    rcases known with rfl | rfl | rfl
    · exact absurd (live.reads rfl) (by decide)
    · exact returns rfl rfl (by decide) live
    · exact returns rfl rfl (by decide) live

/-- A count-down latch. -/
theorem peephole_preserves_iff_latch : (latchTest .ne).Verified ∧
    ∃ G changed, peepholeCombine (latchTest .ne) = some (G, changed) ∧
      Preserves constants (latchTest .ne) G := by
  obtain ⟨G, changed, ran, -, keeps⟩ := peephole_preserves_iff constants (verified_latchTest .ne)
  exact ⟨verified_latchTest .ne, G, changed, ran, keeps ⟨safe_latchTest, fits_latchTest⟩⟩

theorem Lockstep.view {α : Type} {M : Target Op World} {F G : VCodeContainer Op}
    (same : Lockstep M F G) (view : State World → α) (agrees : ∀ s t, Agree G s t → view s = view t)
    (ρ : Reg → Value) (f : Flags) (w : World) (n : Nat) :
    (F.run M n (F.initial ρ f w)).map view = (G.run M n (G.initial ρ f w)).map view := by
  have runs := same ρ f w n
  generalize F.run M n (F.initial ρ f w) = s at runs ⊢
  generalize G.run M n (G.initial ρ f w) = t at runs ⊢
  cases runs with
  | none => rfl
  | some agree => exact congrArg some (agrees _ _ agree)

/-- Neither run agrees with the original: the first passes on a register that has no
definition any more, the second overflows where the comparison saw a positive
number. -/
theorem peephole_changes_meaning :
    (productPassed.Verified ∧ ∃ G, peepholeCombine productPassed = some (G, true) ∧
      ¬ KeepsDefs productPassed G ∧ ¬ Lockstep constants productPassed G) ∧
    ((latchTest .lt).Verified ∧ ∃ G, peepholeCombine (latchTest .lt) = some (G, true) ∧
      ¬ Lockstep constants (latchTest .lt) G) := by
  refine ⟨⟨verified_productPassed, _, rfl, ?_, ?_⟩, verified_latchTest .lt, _, rfl, ?_⟩
  · intro keeps
    have kept := keeps (int 2) (by decide) (.inr (by decide))
    revert kept
    decide
  · intro same
    have passed := same.view (fun s => s.regs (int 4))
      (fun s t agree => (agree.regs _ (.inl ⟨5, by decide⟩)).symm) (fun _ => 0)
      ⟨false, false, false, false⟩ () 5
    revert passed
    decide
  · intro same
    have taken := same.view State.block (fun s t agree => agree.block.symm) (fun _ => 0)
      ⟨false, false, false, false⟩ () 5
    revert taken
    decide

end AnonCompiler.Mir.PeepholeCombine
