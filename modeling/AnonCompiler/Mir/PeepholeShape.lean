import AnonCompiler.Mir.PeepholeCombine

/-!
# What the peephole pass leaves at every index

A scan with a window whose matches do not overlap replaces every match of the
original instructions, whatever order it meets them in (`scan_inst`).  Since no
fused form takes part in another match, all three rules can be read off the
function before the pass: `Combined` says what stands at every index afterwards,
and `combined_peepholeCombine` that the pass establishes it.
-/

set_option autoImplicit false

namespace AnonCompiler.Mir.PeepholeCombine

open VCodeContainer

variable {Op : Type}

/-! ## Scanning with a window -/

section Scan

variable {width : Nat} {fuse : VCodeContainer Op → Nat → Option (MInst Op × MInst Op)}

/-- A match reads the instructions in its window, lies within one block, and no
other match begins inside it. -/
structure Window (width : Nat) (fuse : VCodeContainer Op → Nat → Option (MInst Op × MInst Op))
    (F : VCodeContainer Op) : Prop where
  wide : 2 ≤ width
  reads : ∀ (G H : VCodeContainer Op) (i : Nat),
    (∀ j, j < width → G.inst (i + j) = H.inst (i + j)) → fuse G i = fuse H i
  apart : ∀ i j, (fuse F i).isSome → 0 < j → j < width → fuse F (i + j) = none
  inside : ∀ i, (fuse F i).isSome → ∃ b, F.InBlock b i ∧ i + width ≤ F.stop b

/-- What a scan leaves at an index. -/
def rewriteAt (fuse : VCodeContainer Op → Nat → Option (MInst Op × MInst Op))
    (F : VCodeContainer Op) (k : Nat) : MInst Op :=
  match fuse F k with
  | some (x, _) => x
  | none =>
    match k with
    | 0 => F.inst 0
    | j + 1 =>
      match fuse F j with
      | some (_, y) => y
      | none => F.inst (j + 1)

variable {F : VCodeContainer Op}

variable {k : Nat} {x y : MInst Op} {G : VCodeContainer Op}

theorem rewriteAt_first (h : fuse F k = some (x, y)) : rewriteAt fuse F k = x := by
  simp [rewriteAt, h]

theorem rewriteAt_second (here : fuse F (k + 1) = none) (h : fuse F k = some (x, y)) :
    rewriteAt fuse F (k + 1) = y := by
  simp [rewriteAt, here, h]

theorem rewriteAt_other (here : fuse F k = none) (before : ∀ j, j + 1 = k → fuse F j = none) :
    rewriteAt fuse F k = F.inst k := by
  cases k with
  | zero => simp [rewriteAt, here]
  | succ j => simp [rewriteAt, here, before j rfl]

theorem sameTables_scanFrom (stop fuel i : Nat) (acc : VCodeContainer Op × Nat) :
    SameTables acc.1 (scanFrom width fuse stop fuel i acc).1 := by
  induction fuel generalizing i acc with
  | zero => exact .refl _
  | succ fuel ih =>
    obtain ⟨G, fused⟩ := acc
    simp only [scanFrom]
    split
    · split
      · rename_i x y _
        exact ((SameTables.setInst G i x).trans (.setInst _ (i + 1) y)).trans
          (ih (i + width) (_, fused + 1))
      · exact ih (i + 1) (G, fused)
    · exact .refl _

/-- The scan of the indices from `i` on, where nothing has been rewritten yet. -/
theorem scanFrom_inst (window : Window width fuse F) {stop : Nat} (bound : stop ≤ F.insts.length)
    (fuel fused : Nat) {i : Nat} (tables : SameTables F G) (enough : stop ≤ i + fuel)
    (untouched : ∀ k, i ≤ k → k < stop → G.inst k = F.inst k)
    (fresh : ∀ j, j + 1 = i → fuse F j = none)
    (inside : ∀ k, i ≤ k → k < stop → (fuse F k).isSome → k + width ≤ stop) (k : Nat) :
    (scanFrom width fuse stop fuel i (G, fused)).1.inst k =
      if i ≤ k ∧ k < stop then rewriteAt fuse F k else G.inst k := by
  have wide := window.wide
  induction fuel generalizing i G fused with
  | zero =>
    rw [if_neg (by omega)]
    rfl
  | succ fuel ih =>
    simp only [scanFrom]
    split
    · rename_i room
      have match_eq : fuse G i = fuse F i :=
        window.reads _ _ _ fun j small => untouched _ (by omega) (by omega)
      cases here : fuse F i with
      | some pair =>
        obtain ⟨x, y⟩ := pair
        have some_here : (fuse F i).isSome := by simp [here]
        have none_behind : ∀ j, 0 < j → j < width → fuse F (i + j) = none :=
          fun j => window.apart i j some_here
        have length := tables.length
        have after : ∀ m, ((G.setInst i x).setInst (i + 1) y).inst m =
            if m = i + 1 then y else if m = i then x else G.inst m := by
          intro m
          simp only [inst_setInst, length_setInst]
          split <;> split <;> (try split) <;> (try split) <;> (try rfl) <;> omega
        rw [match_eq, here]
        dsimp only
        rw [ih (fused + 1) (tables.trans ((SameTables.setInst _ _ _).trans (.setInst _ _ _)))
          (by omega) ?_ ?_ ?_]
        · -- the window itself, and the indices on both sides of it
          rw [after]
          by_cases behind : i + width ≤ k ∧ k < stop
          · rw [if_pos behind, if_pos (by omega)]
          · rw [if_neg behind]
            by_cases first : k = i
            · subst first
              rw [if_neg (by omega), if_pos rfl, if_pos (by omega), rewriteAt_first here]
            by_cases second : k = i + 1
            · subst second
              rw [if_pos rfl, if_pos (by omega),
                rewriteAt_second (none_behind 1 one_pos wide) here]
            rw [if_neg second, if_neg first]
            by_cases between : i ≤ k ∧ k < stop
            · have gap : k = i + (k - i) := by omega
              rw [if_pos between, untouched k between.1 between.2, rewriteAt_other]
              · rw [gap]
                exact none_behind _ (by omega) (by omega)
              · intro j next
                have gap : j = i + (j - i) := by omega
                rw [gap]
                exact none_behind _ (by omega) (by omega)
            · rw [if_neg between]
        · intro m low high
          rw [after, if_neg (by omega), if_neg (by omega)]
          exact untouched m (by omega) high
        · intro j next
          have gap : j = i + (width - 1) := by omega
          rw [gap]
          exact none_behind _ (by omega) (by omega)
        · intro m low high
          exact inside m (by omega) high
      | none =>
        rw [match_eq, here]
        dsimp only
        rw [ih fused tables (by omega) (fun m low high => untouched m (by omega) high)
          (fun j next => by
            have same : j = i := by omega
            rw [same]
            exact here)
          (fun m low high => inside m (by omega) high)]
        by_cases first : k = i
        · subst first
          rw [if_neg (by omega), if_pos (by omega), rewriteAt_other here fresh]
          exact untouched k (le_refl _) (by omega)
        · by_cases behind : i + 1 ≤ k ∧ k < stop
          · rw [if_pos behind, if_pos (by omega)]
          · rw [if_neg behind, if_neg (by omega)]
    · rename_i tight
      dsimp only
      by_cases between : i ≤ k ∧ k < stop
      · have none_from : ∀ m, i ≤ m → m < stop → fuse F m = none := by
          intro m low high
          by_contra found
          have := inside m low high (Option.isSome_iff_ne_none.2 found)
          omega
        rw [if_pos between, rewriteAt_other (none_from k between.1 between.2)]
        · exact untouched k between.1 between.2
        · intro j next
          by_cases edge : j + 1 = i
          · exact fresh j edge
          · exact none_from j (by omega) (by omega)
      · rw [if_neg between]

theorem sameTables_scanBlocks (blocks : List MirBlock) (acc : VCodeContainer Op × Nat) :
    SameTables acc.1 (scanBlocks width fuse blocks acc).1 := by
  induction blocks generalizing acc with
  | nil => exact .refl _
  | cons b blocks ih => exact (sameTables_scanFrom _ _ _ _).trans (ih _)

theorem scanBlocks_inst (window : Window width fuse F) (layout : F.Layout) {blocks : List MirBlock}
    (distinct : blocks.Nodup) (known : ∀ b ∈ blocks, b < F.numBlocks) (fused : Nat)
    (tables : SameTables F G) (untouched : ∀ b ∈ blocks, ∀ k, F.InBlock b k → G.inst k = F.inst k)
    (k : Nat) :
    (scanBlocks width fuse blocks (G, fused)).1.inst k = rewriteAt fuse F k ∨
      (∀ b ∈ blocks, ¬ F.InBlock b k) ∧
        (scanBlocks width fuse blocks (G, fused)).1.inst k = G.inst k := by
  induction blocks generalizing G fused with
  | nil => exact .inr ⟨by simp, rfl⟩
  | cons b blocks ih =>
    obtain ⟨notLater, distinct⟩ := List.nodup_cons.1 distinct
    have block := known b (by simp)
    have bounds := layout.bounded b block
    simp only [scanBlocks, tables.start, tables.stop]
    have scanned := scanFrom_inst window bounds.2 (F.stop b - F.start b) fused tables
      (by omega) (fun k low high => untouched b (by simp) k ⟨block, low, high⟩)
      (fun j next => by
        by_contra found
        obtain ⟨c, inside, fits⟩ := window.inside j (Option.isSome_iff_ne_none.2 found)
        have same := layout.disjoint (j + 1) b c ⟨block, by omega, by omega⟩
          ⟨inside.1, by have := inside.2.1; omega, by have := window.wide; omega⟩
        subst same
        have := inside.2.1
        omega)
      (fun k low high found => by
        obtain ⟨c, inside, fits⟩ := window.inside k found
        rwa [layout.disjoint k b c ⟨block, low, high⟩ inside])
    have rest := ih distinct (fun c mem => known c (List.mem_cons_of_mem _ mem))
      (scanFrom width fuse (F.stop b) (F.stop b - F.start b) (F.start b) (G, fused)).2
      (tables.trans (sameTables_scanFrom _ _ _ (G, fused)))
      (fun c mem m inside => by
        rw [scanned, if_neg ?_]
        · exact untouched c (List.mem_cons_of_mem _ mem) m inside
        · intro here
          rw [layout.disjoint m c b inside ⟨block, here⟩] at mem
          exact notLater mem)
    obtain done | ⟨outside, kept⟩ := rest
    · exact .inl done
    · rw [kept, scanned]
      by_cases here : F.start b ≤ k ∧ k < F.stop b
      · exact .inl (if_pos here)
      · refine .inr ⟨?_, if_neg here⟩
        intro c mem
        obtain rfl | later := List.mem_cons.1 mem
        · exact fun inside => here inside.2
        · exact outside c later

/-- A scan of all blocks replaces every match of the original instructions. -/
theorem scan_inst (window : Window width fuse F) (layout : F.Layout) (fused : Nat) (k : Nat) :
    (scanBlocks width fuse (List.range F.numBlocks) (F, fused)).1.inst k = rewriteAt fuse F k := by
  obtain done | ⟨outside, kept⟩ := scanBlocks_inst window layout List.nodup_range
    (fun b mem => List.mem_range.1 mem) fused (.refl F) (fun _ _ _ _ => rfl) k
  · exact done
  · have noMatch : ∀ m, (∀ b, ¬ F.InBlock b m) → fuse F m = none := by
      intro m none_in
      by_contra found
      obtain ⟨b, inside, _⟩ := window.inside m (Option.isSome_iff_ne_none.2 found)
      exact none_in b inside
    have here : ∀ b, ¬ F.InBlock b k := fun b inside =>
      outside b (List.mem_range.2 inside.1) inside
    rw [kept, rewriteAt_other (noMatch k here)]
    rintro j rfl
    by_contra found
    obtain ⟨b, inside, fits⟩ := window.inside j (Option.isSome_iff_ne_none.2 found)
    have := window.wide
    exact here b ⟨inside.1, by have := inside.2.1; omega, by omega⟩

end Scan

/-! ## The matches -/

/-- The pairs that fuse into a multiply-accumulate. -/
inductive MacPair (useCounts : Reg → Nat) : MInst Op → MInst Op → MInst Op → Prop
  | addLeft {mulSize size : OperandSize} {product l r dst x : Reg} (once : useCounts product = 1) :
      MacPair useCounts (.aluRRR .mul mulSize product (.reg l) (.reg r))
        (.aluRRR .add size dst (.reg product) (.reg x)) (.mAdd size dst l r x)
  | addRight {mulSize size : OperandSize} {product l r dst x : Reg} (once : useCounts product = 1) :
      MacPair useCounts (.aluRRR .mul mulSize product (.reg l) (.reg r))
        (.aluRRR .add size dst (.reg x) (.reg product)) (.mAdd size dst l r x)
  | sub {mulSize size : OperandSize} {product l r dst x : Reg} (once : useCounts product = 1) :
      MacPair useCounts (.aluRRR .mul mulSize product (.reg l) (.reg r))
        (.aluRRR .sub size dst (.reg x) (.reg product)) (.mSub size dst l r x)

section Overlap

variable {useCounts : Reg → Nat} {a b c d fused fused' : MInst Op}

theorem MacPair.plain (pair : MacPair useCounts a b fused) : a.isTerm = false ∧ a ≠ .removed := by
  cases pair <;> exact ⟨rfl, by simp⟩

theorem MacPair.not_next (pair : MacPair useCounts a b fused) : ¬ MacPair useCounts b c fused' := by
  intro again
  cases pair <;> cases again

end Overlap

variable {r : Reg} {first second fused : MInst Op} {i cmpIdx : Nat} {size : OperandSize}
  {cond : Cond} {pred : MirBlock}

theorem regOrZrToReg_eq_some {x : RegOrZr} (h : regOrZrToReg x = some r) : x = .reg r := by
  cases x with
  | zr => cases h
  | reg r' => cases h; rfl

theorem regOrZrMatches_iff {x : RegOrZr} : regOrZrMatches x r = true ↔ x = .reg r := by
  simp [regOrZrMatches]

theorem otherOperand_cases {lhs rhs : RegOrZr} {product x : Reg}
    (h : otherOperand lhs rhs product = some x) :
    (lhs = .reg product ∧ rhs = .reg x) ∨ (lhs = .reg x ∧ rhs = .reg product) := by
  simp only [otherOperand, regOrZrMatches_iff] at h
  split at h
  · exact .inl ⟨‹_›, regOrZrToReg_eq_some h⟩
  · split at h
    · exact .inr ⟨regOrZrToReg_eq_some h, ‹_›⟩
    · cases h

theorem fuseMac_cases {useCounts : Reg → Nat} (h : fuseMac useCounts first second = some fused) :
    MacPair useCounts first second fused := by
  unfold fuseMac at h
  split at h
  · rename_i mulSize product mulLhs mulRhs
    split at h
    · rename_i l r hl hr
      cases regOrZrToReg_eq_some hl
      cases regOrZrToReg_eq_some hr
      split at h
      · cases h
      · rename_i once
        have once : useCounts product = 1 := by simpa using once
        split at h
        · obtain ⟨x, found, rfl⟩ := Option.map_eq_some_iff.1 h
          obtain ⟨rfl, rfl⟩ | ⟨rfl, rfl⟩ := otherOperand_cases found
          · exact .addLeft once
          · exact .addRight once
        · split at h
          · rename_i subtrahend
            have rhs := regOrZrMatches_iff.1 subtrahend
            obtain ⟨x, found, rfl⟩ := Option.map_eq_some_iff.1 h
            obtain ⟨rfl, same⟩ | ⟨rfl, rfl⟩ := otherOperand_cases found
            · cases rhs.symm.trans same
              cases rhs
              exact .sub once
            · exact .sub once
          · cases h
        · cases h
    · cases h
  · cases h

/-- The triples of which the comparison goes away, with the branch's condition. -/
inductive FlagTriple (useCounts : Reg → Nat) (cond : Cond) :
    MInst Op → MInst Op → MInst Op → MInst Op → Prop
  | subs {size : OperandSize} {dst src : Reg} {imm zero : Imm12} {t e : Label}
      (isZero : zero.value = 0) (safe : subsSafeCond cond = true) :
      FlagTriple useCounts cond (.aluRRImm12 .sub size dst src imm) (.cmpImm size dst zero)
        (.condBr cond t e) (.subsRRImm12 size dst src imm)
  | tst {size : OperandSize} {dst : Reg} {src : RegOrZr} {imm : ImmLogic} {zero : Imm12}
      {t e : Label} (isZero : zero.value = 0) (safe : logicalSafeCond cond = true)
      (once : useCounts dst = 1) :
      FlagTriple useCounts cond (.aluRRImmLogic .and size dst src imm) (.cmpImm size dst zero)
        (.condBr cond t e) (.tstRRImmLogic size src imm)
  | ands {size : OperandSize} {dst : Reg} {src : RegOrZr} {imm : ImmLogic} {zero : Imm12}
      {t e : Label} (isZero : zero.value = 0) (safe : logicalSafeCond cond = true) :
      FlagTriple useCounts cond (.aluRRImmLogic .and size dst src imm) (.cmpImm size dst zero)
        (.condBr cond t e) (.andsRRImmLogic size dst src imm)

section Overlap

variable {useCounts : Reg → Nat} {cond cond' : Cond} {a b c d e fused fused' : MInst Op}

section

variable (triple : FlagTriple useCounts cond a b c fused)
include triple

theorem FlagTriple.plain : (a.isTerm = false ∧ a ≠ .removed) ∧ b.isTerm = false := by
  cases triple <;> exact ⟨⟨rfl, by simp⟩, rfl⟩

theorem FlagTriple.compare :
    (∃ size dst zero, b = .cmpImm size dst zero) ∧ ∀ size dst zero, a ≠ .cmpImm size dst zero := by
  cases triple <;> exact ⟨⟨_, _, _, rfl⟩, by simp⟩

theorem FlagTriple.not_next :
    ¬ FlagTriple useCounts cond' b d e fused' ∧ ¬ FlagTriple useCounts cond' c d e fused' := by
  constructor <;> intro again <;> cases triple <;> cases again

end

end Overlap

theorem fuseFlagTriple_cases {useCounts : Reg → Nat} {third : MInst Op}
    (h : fuseFlagTriple useCounts first second third = some fused) :
    ∃ cond, FlagTriple useCounts cond first second third fused := by
  unfold fuseFlagTriple at h
  split at h
  · rename_i size dst src imm cmpSize lhs zero cond t e
    split at h
    · rename_i fits
      obtain ⟨rfl, isZero, rfl, safe⟩ := fits
      cases h
      exact ⟨cond, .subs isZero safe⟩
    · cases h
  · rename_i size dst src imm cmpSize lhs zero cond t e
    split at h
    · rename_i fits
      obtain ⟨rfl, isZero, rfl, safe⟩ := fits
      split at h
      · rename_i once
        cases h
        exact ⟨cond, .tst isZero safe once⟩
      · cases h
        exact ⟨cond, .ands isZero safe⟩
    · cases h
  · cases h

variable {useCounts : Reg → Nat} {F : VCodeContainer Op}

theorem macWindow_isSome (found : (macWindow useCounts F i).isSome) :
    ∃ fused, MacPair useCounts (F.inst i) (F.inst (i + 1)) fused := by
  obtain ⟨pair, found⟩ := Option.isSome_iff_exists.1 found
  obtain ⟨fused, found, -⟩ := Option.map_eq_some_iff.1 found
  exact ⟨fused, fuseMac_cases found⟩

theorem flagWindow_isSome (found : (flagWindow useCounts F i).isSome) :
    ∃ cond fused, FlagTriple useCounts cond (F.inst i) (F.inst (i + 1)) (F.inst (i + 2)) fused := by
  obtain ⟨pair, found⟩ := Option.isSome_iff_exists.1 found
  obtain ⟨fused, found, -⟩ := Option.map_eq_some_iff.1 found
  obtain ⟨cond, triple⟩ := fuseFlagTriple_cases found
  exact ⟨cond, fused, triple⟩

/-- An instruction that is no tombstone stands in a block. -/
theorem exists_inBlock (layout : F.Layout) (live : F.inst i ≠ .removed) : ∃ b, F.InBlock b i := by
  apply layout.covered
  by_contra out
  exact live (inst_of_le (by omega))

theorem window_mac (useCounts : Reg → Nat) (layout : F.Layout) :
    Window 2 (macWindow useCounts) F where
  wide := le_refl 2
  reads := by
    intro G H i same
    have first := same 0 (by omega)
    have second := same 1 (by omega)
    simp only [Nat.add_zero] at first
    simp only [macWindow, first, second]
  apart := by
    intro i j found pos small
    have next : j = 1 := by omega
    subst next
    obtain ⟨fused, pair⟩ := macWindow_isSome found
    by_contra again
    obtain ⟨fused', pair'⟩ := macWindow_isSome (Option.isSome_iff_ne_none.2 again)
    exact pair.not_next pair'
  inside := by
    intro i found
    obtain ⟨fused, pair⟩ := macWindow_isSome found
    obtain ⟨b, inside⟩ := exists_inBlock layout pair.plain.2
    exact ⟨b, inside, (layout.inBlock_succ inside pair.plain.1).2.2⟩

theorem window_flag (useCounts : Reg → Nat) (layout : F.Layout) :
    Window 3 (flagWindow useCounts) F where
  wide := by omega
  reads := by
    intro G H i same
    have first := same 0 (by omega)
    have second := same 1 (by omega)
    have third := same 2 (by omega)
    simp only [Nat.add_zero] at first
    simp only [flagWindow, first, second, third]
  apart := by
    intro i j found pos small
    obtain ⟨cond, fused, triple⟩ := flagWindow_isSome found
    by_contra again
    obtain ⟨cond', fused', triple'⟩ := flagWindow_isSome (Option.isSome_iff_ne_none.2 again)
    have next : j = 1 ∨ j = 2 := by omega
    obtain rfl | rfl := next
    · exact triple.not_next.1 triple'
    · exact triple.not_next.2 triple'
  inside := by
    intro i found
    obtain ⟨cond, fused, triple⟩ := flagWindow_isSome found
    obtain ⟨⟨plain, live⟩, plain'⟩ := triple.plain
    obtain ⟨b, inside⟩ := exists_inBlock layout live
    have next := layout.inBlock_succ inside plain
    exact ⟨b, inside, (layout.inBlock_succ next plain').2.2⟩

/-! ## The cross-block rule -/

/-- Block `b` begins with a comparison with zero and a conditional branch, and is
entered by the jump of one block only. -/
structure IsTest (F : VCodeContainer Op) (b : MirBlock) (cmpIdx : Nat) (size : OperandSize)
    (lhs : Reg) (cond : Cond) (pred : MirBlock) : Prop where
  low : F.start b ≤ cmpIdx
  high : cmpIdx + 1 < F.stop b
  tombstones : ∀ k, F.start b ≤ k → k < cmpIdx → F.inst k = .removed
  compare : ∃ zero : Imm12, F.inst cmpIdx = .cmpImm size lhs zero ∧ zero.value = 0
  branch : ∃ t e, F.inst (cmpIdx + 1) = .condBr cond t e
  preds : F.blockPreds b = [pred]
  jump : F.inst (F.stop pred - 1) = .jump (.block b)

/-- The predecessor passes the result of its last subtraction to the compared
parameter. -/
structure IsLatch (F : VCodeContainer Op) (b : MirBlock) (l : Latch) (lhs : Reg) (cond : Cond)
    (pred : MirBlock) : Prop extends IsTest F b l.cmpIdx l.size lhs cond pred where
  two : 2 ≤ F.stop pred
  subIdx : l.subIdx = F.stop pred - 2
  sub : F.inst l.subIdx = .aluRRImm12 .sub l.size l.dst l.src l.imm
  param : ∃ k, (F.blockParams b).idxOf? lhs = some k ∧
    (F.branchBlockparams pred 0)[k]? = some l.dst

theorem isRemoved_iff {x : MInst Op} : isRemoved x = true ↔ x = .removed := by
  cases x <;> simp [isRemoved]

theorem firstLive_eq_some {b : MirBlock} : firstLive F b = some i ↔
    F.inst i ≠ .removed ∧ F.start b ≤ i ∧ i < F.stop b ∧
      ∀ k, F.start b ≤ k → k < i → F.inst k = .removed := by
  simp only [firstLive, List.find?_range'_eq_some, List.mem_range'_1, Bool.not_not, isRemoved_iff,
    Bool.not_eq_true', ← Bool.not_eq_true]
  constructor
  · rintro ⟨here, ⟨low, high⟩, before⟩
    exact ⟨here, low, by omega, before⟩
  · rintro ⟨here, low, high, before⟩
    exact ⟨here, ⟨low, by omega⟩, before⟩

theorem label_block?_eq_some {label : Label} {b : MirBlock} (h : label.block? = some b) :
    label = .block b := by
  cases label with
  | block c => cases h; rfl
  | external symbol => cases h

/-- What the rule has found when it reaches the predecessor's jump, and what it does
from there. -/
theorem latchAt_cases {b : MirBlock} {found : Option Latch} (h : latchAt F b = some found) :
    found = none ∨ ∃ l lhs cond pred, found = some l ∧ IsLatch F b l lhs cond pred := by
  unfold latchAt at h
  split at h
  · exact .inl (by cases h; rfl)
  rename_i cmpIdx first
  obtain ⟨-, low, high, tombstones⟩ := firstLive_eq_some.1 first
  split at h
  case h_2 => exact .inl (by cases h; rfl)
  rename_i size lhs zero compare
  split at h
  · exact .inl (by cases h; rfl)
  rename_i fits
  split at h
  case h_2 => exact .inl (by cases h; rfl)
  rename_i cond t e pred branch preds
  split at h
  · cases h
  split at h
  case h_2 => exact .inl (by cases h; rfl)
  rename_i label jump
  split at h
  · exact .inl (by cases h; rfl)
  rename_i target
  split at h
  · cases h
  split at h
  case h_2 => exact .inl (by cases h; rfl)
  rename_i subSize dst src imm sub
  split at h
  · exact .inl (by cases h; rfl)
  rename_i sameSize
  split at h
  · exact .inl (by cases h; rfl)
  rename_i k position
  split at h
  · exact .inl (by cases h; rfl)
  rename_i passed
  cases h
  have target := label_block?_eq_some (not_not.1 target)
  have sameSize := not_not.1 sameSize
  subst target sameSize
  refine .inr ⟨_, lhs, cond, pred, rfl, ?_⟩
  exact {
    low := low
    high := by simp only; omega
    tombstones := tombstones
    compare := ⟨zero, compare, by omega⟩
    branch := ⟨t, e, branch⟩
    preds := preds
    jump := jump
    two := by omega
    subIdx := rfl
    sub := sub
    param := ⟨k, position, not_not.1 passed⟩ }

theorem IsTest.firstLive {b : Nat} {lhs : Reg} (test : IsTest F b cmpIdx size lhs cond pred) :
    PeepholeCombine.firstLive F b = some cmpIdx := by
  obtain ⟨zero, compare, -⟩ := test.compare
  have high := test.high
  exact firstLive_eq_some.2 ⟨by simp [compare], test.low, by omega, test.tombstones⟩

theorem latchAt_of_isLatch {b : MirBlock} {l : Latch} {lhs : Reg}
    (latch : IsLatch F b l lhs cond pred) : latchAt F b = some (some l) := by
  obtain ⟨zero, compare, isZero⟩ := latch.compare
  obtain ⟨t, e, branch⟩ := latch.branch
  obtain ⟨k, position, passed⟩ := latch.param
  have high := latch.high
  have two := latch.two
  have sub := latch.sub
  rw [latch.subIdx] at sub
  unfold latchAt
  simp only [latch.firstLive, compare, branch, latch.preds, latch.jump, sub, position, passed]
  rw [if_neg (by omega), if_neg (by omega), if_neg (by simp [Label.block?]), if_neg (by omega),
    if_neg (by simp), if_neg (by simp), ← latch.subIdx]

theorem latchAt_eq_none {b : MirBlock} (h : latchAt F b = none) :
    ∃ cmpIdx size lhs cond pred, F.blockPreds b = [pred] ∧ (F.stop pred = 0 ∨
      IsTest F b cmpIdx size lhs cond pred ∧ F.stop pred = 1) := by
  unfold latchAt at h
  split at h
  · cases h
  rename_i cmpIdx first
  obtain ⟨-, low, high, tombstones⟩ := firstLive_eq_some.1 first
  split at h
  case h_2 => cases h
  rename_i size lhs zero compare
  split at h
  · cases h
  rename_i fits
  split at h
  case h_2 => cases h
  rename_i cond t e pred branch preds
  refine ⟨cmpIdx, size, lhs, cond, pred, preds, ?_⟩
  split at h
  · exact .inl ‹_›
  split at h
  case h_2 => cases h
  rename_i label jump
  split at h
  · cases h
  rename_i target
  split at h
  · rename_i short
    have target := label_block?_eq_some (not_not.1 target)
    subst target
    exact .inr ⟨⟨low, by omega, tombstones, ⟨zero, compare, by omega⟩, ⟨t, e, branch⟩, preds, jump⟩,
      short⟩
  split at h
  case h_2 => cases h
  split at h
  · cases h
  split at h
  · cases h
  split at h <;> cases h

/-- The block a test is entered from has an instruction before its jump: were the
jump alone in the first block, nothing could have defined the compared register. -/
theorem IsTest.two_le {b : Nat} {lhs : Reg} (test : IsTest F b cmpIdx size lhs cond pred)
    (verified : F.Verified) (block : b < F.numBlocks) : 2 ≤ F.stop pred := by
  obtain ⟨known, edge⟩ := verified.predSuccs b pred block (by simp [test.preds])
  have bounds := verified.bounded pred known
  by_contra short
  obtain ⟨entryBlock, entryStart, noParams⟩ := verified.entry
  have isEntry : pred = 0 := verified.disjoint 0 pred 0 ⟨known, by omega, by omega⟩
    ⟨entryBlock, by omega, by have := verified.bounded 0 entryBlock; omega⟩
  subst isEntry
  have high := test.high
  have low := test.low
  have notEntry : b ≠ 0 := by
    rintro rfl
    omega
  have only : F.stop 0 - 1 = 0 := by omega
  have jump := test.jump
  rw [only] at jump
  -- the dominators of `b` are `b` and the first block, and only the latter dominates itself
  have above : ∀ d, Lib.Dominates F.Edge 0 d b → d = b ∨ d = 0 := by
    intro d dominates
    by_contra other
    rw [not_or] at other
    exact other.2 (dominates.pred (Ne.symm other.1) edge).eq_root
  obtain ⟨zero, compare, -⟩ := test.compare
  have nothing : ∀ r j, F.InBlock 0 j → r ∉ (F.inst j).defs := by
    intro r j inside
    have : j = 0 := by have := inside.2.2; omega
    subst this
    simp [jump, MInst.defs]
  have reached := verified.uses b cmpIdx ⟨block, low, by omega⟩ lhs (by simp [compare, MInst.uses])
    (verified.compares _ _ _ _ compare)
  obtain ⟨d, isParam, dominates⟩ | ⟨d, j, inside, isDef, before, dominates⟩ := reached
  · obtain rfl | rfl := above d dominates
    · -- the argument for the parameter would be defined in the first block
      have targets := verified.succs 0 entryBlock
      rw [only, jump] at targets
      have succs : F.blockSuccs 0 = [d] := by
        cases h : F.blockSuccs 0 with
        | nil => simp [h, MInst.targets] at targets
        | cons c rest =>
          rw [h] at targets
          cases rest with
          | nil => simpa [MInst.targets, eq_comm] using targets
          | cons _ _ => simp [MInst.targets] at targets
      have arity := verified.arity 0 0 d (by simp [succs])
      have some_arg : 0 < (F.branchBlockparams 0 0).length := by
        rw [arity]
        exact List.length_pos_of_mem isParam
      obtain ⟨arg, isArg⟩ := List.exists_mem_of_length_pos some_arg
      obtain ⟨c, isParam, dominates⟩ | ⟨c, j, inside, isDef, -, dominates⟩ :=
        verified.edgeUses 0 0 entryBlock arg isArg
      · rw [dominates.eq_root, noParams] at isParam
        exact absurd isParam List.not_mem_nil
      · have := dominates.eq_root
        subst this
        exact nothing _ _ inside isDef
    · rw [noParams] at isParam
      exact absurd isParam List.not_mem_nil
  · obtain rfl | rfl := above d dominates
    · have := before rfl
      rw [test.tombstones j inside.2.1 this] at isDef
      simp [MInst.defs] at isDef
    · exact nothing _ _ inside isDef

/-! ## The result -/

/-- The multiply-accumulate fusion of the original instructions at an index. -/
def pairAt (F : VCodeContainer Op) (k : Nat) : Option (MInst Op) :=
  fuseMac (buildVregUseCounts F) (F.inst k) (F.inst (k + 1))

/-- The in-block flag fusion of the original instructions at an index. -/
def tripleAt (F : VCodeContainer Op) (k : Nat) : Option (MInst Op) :=
  fuseFlagTriple (buildVregUseCounts F) (F.inst k) (F.inst (k + 1)) (F.inst (k + 2))

/-- What stands at every index when the in-block rules have been applied to `F`, and
the cross-block rule for the test blocks in `done`. -/
structure Combined (F G : VCodeContainer Op) (done : MirBlock → Prop) : Prop where
  tables : SameTables F G
  pair : ∀ k fused, pairAt F k = some fused → G.inst k = .removed ∧ G.inst (k + 1) = fused
  triple : ∀ k fused, tripleAt F k = some fused → G.inst k = fused ∧ G.inst (k + 1) = .removed
  latch : ∀ b l, done b → latchAt F b = some (some l) →
    G.inst l.subIdx = .subsRRImm12 l.size l.dst l.src l.imm ∧ G.inst l.cmpIdx = .removed
  other : ∀ k, G.inst k = F.inst k ∨
    (pairAt F k).isSome ∨ (∃ j, k = j + 1 ∧ (pairAt F j).isSome) ∨
    (tripleAt F k).isSome ∨ (∃ j, k = j + 1 ∧ (tripleAt F j).isSome) ∨
    ∃ b l, done b ∧ latchAt F b = some (some l) ∧ (k = l.subIdx ∨ k = l.cmpIdx)

section InBlock

/-- The forms a multiply-accumulate fusion consumes or leaves. -/
def isMac : MInst Op → Bool
  | .aluRRR _ _ _ _ _ | .removed | .mAdd _ _ _ _ _ | .mSub _ _ _ _ _ => true
  | _ => false

variable {a b fused c : MInst Op}

theorem MacPair.isMac {useCounts : Reg → Nat} (pair : MacPair useCounts a b fused) :
    PeepholeCombine.isMac a = true ∧ PeepholeCombine.isMac b = true ∧
      PeepholeCombine.isMac fused = true := by
  cases pair <;> exact ⟨rfl, rfl, rfl⟩

theorem FlagTriple.not_isMac {useCounts : Reg → Nat} {cond : Cond}
    (triple : FlagTriple useCounts cond a b c fused) :
    PeepholeCombine.isMac a = false ∧ PeepholeCombine.isMac b = false ∧
      PeepholeCombine.isMac c = false := by
  cases triple <;> exact ⟨rfl, rfl, rfl⟩

/-- The first scan leaves an instruction alone, or both it and its replacement are
forms of multiply-accumulate. -/
theorem rewriteAt_mac (k : Nat) :
    rewriteAt (macWindow useCounts) F k = F.inst k ∨
      isMac (F.inst k) = true ∧ isMac (rewriteAt (macWindow useCounts) F k) = true := by
  cases here : macWindow useCounts F k with
  | some pair =>
    obtain ⟨fused, isPair⟩ := macWindow_isSome (by simp [here] : (macWindow useCounts F k).isSome)
    obtain ⟨_, -, rfl⟩ := Option.map_eq_some_iff.1 here
    exact .inr ⟨isPair.isMac.1, by rw [rewriteAt_first here]; rfl⟩
  | none =>
    cases k with
    | zero => exact .inl (rewriteAt_other here (by simp))
    | succ j =>
      cases before : macWindow useCounts F j with
      | none => exact .inl (rewriteAt_other here fun m next => by cases next; exact before)
      | some pair =>
        obtain ⟨fused, found, rfl⟩ := Option.map_eq_some_iff.1 before
        have isPair := fuseMac_cases found
        exact .inr ⟨isPair.isMac.2.1,
          by rw [rewriteAt_second here before]; exact isPair.isMac.2.2⟩

/-- A flag fusion does not see the first scan. -/
theorem fuseFlagTriple_mac {a' b' c' : MInst Op} (first : a' = a ∨ isMac a = true ∧ isMac a' = true)
    (second : b' = b ∨ isMac b = true ∧ isMac b' = true)
    (third : c' = c ∨ isMac c = true ∧ isMac c' = true) :
    fuseFlagTriple useCounts a' b' c' = fuseFlagTriple useCounts a b c := by
  have fails : ∀ x y z : MInst Op, isMac x = true ∨ isMac y = true ∨ isMac z = true →
      fuseFlagTriple useCounts x y z = none := by
    intro x y z mac
    by_contra found
    obtain ⟨fused, found⟩ := Option.ne_none_iff_exists'.1 found
    obtain ⟨cond, triple⟩ := fuseFlagTriple_cases found
    simp [triple.not_isMac] at mac
  obtain rfl | first := first
  · obtain rfl | second := second
    · obtain rfl | third := third
      · rfl
      · rw [fails _ _ _ (.inr (.inr third.2)), fails _ _ _ (.inr (.inr third.1))]
    · rw [fails _ _ _ (.inr (.inl second.2)), fails _ _ _ (.inr (.inl second.1))]
  · rw [fails _ _ _ (.inl first.2), fails _ _ _ (.inl first.1)]

/-- The function after both scans. -/
def afterScans (F : VCodeContainer Op) : VCodeContainer Op :=
  let useCounts := buildVregUseCounts F
  let G := (scanBlocks 2 (macWindow useCounts) (List.range F.numBlocks) (F, 0)).1
  (scanBlocks 3 (flagWindow useCounts) (List.range G.numBlocks) (G, 0)).1

theorem combined_afterScans (layout : F.Layout) : Combined F (afterScans F) fun _ => False := by
  let useCounts := buildVregUseCounts F
  let G := (scanBlocks 2 (macWindow useCounts) (List.range F.numBlocks) (F, 0)).1
  have tables : SameTables F G := sameTables_scanBlocks _ (F, 0)
  have mac := scan_inst (window_mac useCounts layout) layout 0
  have mac : ∀ k, G.inst k = rewriteAt (macWindow useCounts) F k := mac
  have soft : ∀ k, G.inst k = F.inst k ∨ isMac (F.inst k) = true ∧ isMac (G.inst k) = true := by
    intro k
    rw [mac]
    exact rewriteAt_mac k
  have terms : ∀ k, (G.inst k).isTerm = (F.inst k).isTerm := by
    intro k
    have plain : ∀ x : MInst Op, isMac x = true → x.isTerm = false := by
      intro x
      cases x <;> simp [isMac, MInst.isTerm]
    obtain same | ⟨before, after⟩ := soft k
    · rw [same]
    · rw [plain _ before, plain _ after]
  have layoutG := layout.of_sameTables tables terms
  have flag := scan_inst (window_flag useCounts layoutG) layoutG 0
  have flag : ∀ k, (afterScans F).inst k = rewriteAt (flagWindow useCounts) G k := flag
  have windows : ∀ k, flagWindow useCounts G k = (tripleAt F k).map fun fused =>
      (fused, .removed) := by
    intro k
    simp only [flagWindow, tripleAt, fuseFlagTriple_mac (soft k) (soft (k + 1)) (soft (k + 2)),
      useCounts]
  have pairs : ∀ k, macWindow useCounts F k = (pairAt F k).map fun fused => (.removed, fused) :=
    fun k => rfl
  have none_of_isMac : ∀ k, isMac (F.inst k) = true →
      tripleAt F k = none ∧ ∀ j, j + 1 = k → tripleAt F j = none := by
    intro k isMac
    constructor
    · by_contra found
      obtain ⟨fused, found⟩ := Option.ne_none_iff_exists'.1 found
      obtain ⟨cond, triple⟩ := fuseFlagTriple_cases found
      simp [triple.not_isMac] at isMac
    · rintro j rfl
      by_contra found
      obtain ⟨fused, found⟩ := Option.ne_none_iff_exists'.1 found
      obtain ⟨cond, triple⟩ := fuseFlagTriple_cases found
      simp [triple.not_isMac] at isMac
  have unflagged : ∀ k, tripleAt F k = none → (∀ j, j + 1 = k → tripleAt F j = none) →
      (afterScans F).inst k = G.inst k := by
    intro k here before
    rw [flag, rewriteAt_other (by rw [windows, here]; rfl)]
    intro j next
    rw [windows, before j next]
    rfl
  constructor
  · exact tables.trans (sameTables_scanBlocks _ (G, 0))
  · intro k fused found
    have isPair := (fuseMac_cases found).isMac
    have here : macWindow useCounts F k = some (.removed, fused) := by rw [pairs, found]; rfl
    have behind := (window_mac useCounts layout).apart k 1 (by simp [here]) one_pos one_lt_two
    have first := none_of_isMac k isPair.1
    have second := none_of_isMac (k + 1) isPair.2.1
    rw [unflagged k first.1 first.2, unflagged (k + 1) second.1 second.2, mac, mac,
      rewriteAt_first here, rewriteAt_second behind here]
    exact ⟨rfl, rfl⟩
  · intro k fused found
    have here : flagWindow useCounts G k = some (fused, .removed) := by rw [windows, found]; rfl
    have behind := (window_flag useCounts layoutG).apart k 1 (by simp [here]) one_pos (by omega)
    rw [flag, flag, rewriteAt_first here, rewriteAt_second behind here]
    exact ⟨rfl, rfl⟩
  · intro b l impossible
    exact impossible.elim
  · intro k
    by_cases first : (tripleAt F k).isSome
    · exact .inr (.inr (.inr (.inl first)))
    by_cases second : ∃ j, k = j + 1 ∧ (tripleAt F j).isSome
    · exact .inr (.inr (.inr (.inr (.inl second))))
    rw [unflagged k (by simpa using first) ?_, mac]
    · by_cases product : (pairAt F k).isSome
      · exact .inr (.inl product)
      by_cases sum : ∃ j, k = j + 1 ∧ (pairAt F j).isSome
      · exact .inr (.inr (.inl sum))
      refine .inl (rewriteAt_other ?_ ?_)
      · rw [pairs]
        simpa using product
      · rintro j rfl
        rw [pairs]
        by_contra found
        exact sum ⟨j, rfl, by simpa [Option.isSome_iff_ne_none] using found⟩
    · rintro j rfl
      by_contra found
      exact second ⟨j, rfl, Option.isSome_iff_ne_none.2 found⟩

end InBlock

section CrossBlock

/-- The forms the rules consume. -/
def isFusible : MInst Op → Bool
  | .aluRRR _ _ _ _ _ | .aluRRImm12 _ _ _ _ _ | .aluRRImmLogic _ _ _ _ _ | .cmpImm _ _ _ => true
  | _ => false

/-- The forms the rules leave. -/
def isFused : MInst Op → Bool
  | .removed | .mAdd _ _ _ _ _ | .mSub _ _ _ _ _ | .subsRRImm12 _ _ _ _ | .andsRRImmLogic _ _ _ _
  | .tstRRImmLogic _ _ _ => true
  | _ => false

variable {k cmpIdx : Nat} {fused a : MInst Op} {l l' : Latch} {cond cond' : Cond}
  {size : OperandSize} {lhs lhs' : Reg} {pred pred' : MirBlock}

theorem pairAt_cases (found : pairAt F k = some fused) :
    MacPair (buildVregUseCounts F) (F.inst k) (F.inst (k + 1)) fused := fuseMac_cases found

theorem tripleAt_cases (found : tripleAt F k = some fused) :
    ∃ cond, FlagTriple (buildVregUseCounts F) cond (F.inst k) (F.inst (k + 1))
      (F.inst (k + 2)) fused :=
  fuseFlagTriple_cases found

theorem latchAt_isLatch {b : MirBlock} (found : latchAt F b = some (some l)) :
    ∃ lhs cond pred, IsLatch F b l lhs cond pred := by
  obtain none | ⟨l', lhs, cond, pred, same, latch⟩ := latchAt_cases found
  · cases none
  · cases same
    exact ⟨lhs, cond, pred, latch⟩

theorem MacPair.forms {useCounts : Reg → Nat} {b : MInst Op} (pair : MacPair useCounts a b fused) :
    (isFusible a = true ∧ isFusible b = true ∧ isFused fused = true) ∧ fused ≠ .removed := by
  cases pair <;> exact ⟨⟨rfl, rfl, rfl⟩, by simp⟩

theorem FlagTriple.forms {useCounts : Reg → Nat} {b c : MInst Op}
    (triple : FlagTriple useCounts cond a b c fused) :
    (isFusible a = true ∧ isFusible b = true ∧ isFused fused = true) ∧ fused ≠ .removed ∧
      c.isTerm = true := by
  cases triple <;> exact ⟨⟨rfl, rfl, rfl⟩, by simp, rfl⟩

variable {G : VCodeContainer Op} {done : MirBlock → Prop}

/-- What is rewritten was of a form the rules consume, and is then of a form they
leave. -/
theorem Combined.forms (combined : Combined F G done) (k : Nat) :
    G.inst k = F.inst k ∨ isFusible (F.inst k) = true ∧ isFused (G.inst k) = true := by
  obtain same | product | ⟨j, rfl, sum⟩ | first | ⟨j, rfl, second⟩ |
      ⟨b, l, isDone, latch, position⟩ := combined.other k
  · exact .inl same
  · obtain ⟨fused, found⟩ := Option.isSome_iff_exists.1 product
    rw [(combined.pair k fused found).1]
    exact .inr ⟨(pairAt_cases found).forms.1.1, rfl⟩
  · obtain ⟨fused, found⟩ := Option.isSome_iff_exists.1 sum
    rw [(combined.pair j fused found).2]
    exact .inr (pairAt_cases found).forms.1.2
  · obtain ⟨fused, found⟩ := Option.isSome_iff_exists.1 first
    obtain ⟨cond, triple⟩ := tripleAt_cases found
    rw [(combined.triple k fused found).1]
    exact .inr ⟨triple.forms.1.1, triple.forms.1.2.2⟩
  · obtain ⟨fused, found⟩ := Option.isSome_iff_exists.1 second
    obtain ⟨cond, triple⟩ := tripleAt_cases found
    rw [(combined.triple j fused found).2]
    exact .inr ⟨triple.forms.1.2.1, rfl⟩
  · obtain ⟨lhs, cond, pred, isLatch⟩ := latchAt_isLatch latch
    obtain ⟨zero, compare, -⟩ := isLatch.compare
    have ⟨sub, cmp⟩ := combined.latch b l isDone latch
    obtain rfl | rfl := position
    · rw [sub, isLatch.sub]
      exact .inr ⟨rfl, rfl⟩
    · rw [cmp, compare]
      exact .inr ⟨rfl, rfl⟩

theorem Combined.same_of_not_isFusible (combined : Combined F G done)
    (form : isFusible (F.inst k) = false) : G.inst k = F.inst k := by
  obtain same | ⟨fusible, -⟩ := combined.forms k
  · exact same
  · rw [form] at fusible
    exact absurd fusible Bool.false_ne_true

theorem Combined.same_of_not_isFused (combined : Combined F G done)
    (form : isFused (G.inst k) = false) : G.inst k = F.inst k := by
  obtain same | ⟨-, fused⟩ := combined.forms k
  · exact same
  · rw [form] at fused
    exact absurd fused Bool.false_ne_true

theorem isFusible_of_isTerm {x : MInst Op} (term : x.isTerm = true) : isFusible x = false := by
  cases x <;> simp_all [MInst.isTerm, isFusible]

/-- Nothing before a live comparison was removed by a rule: behind what a rule
removes stands a live instruction that is no comparison. -/
theorem Combined.isTest (combined : Combined F G done) {b : Nat}
    (test : IsTest G b cmpIdx size lhs cond pred) : IsTest F b cmpIdx size lhs cond pred := by
  have tables := combined.tables
  obtain ⟨low, high, tombstones, ⟨zero, compare, isZero⟩, ⟨t, e, branch⟩, preds, jump⟩ := test
  rw [tables.start] at low tombstones
  rw [tables.stop] at high jump
  rw [tables.blockPreds] at preds
  have compareF : F.inst cmpIdx = .cmpImm size lhs zero := by
    rw [← combined.same_of_not_isFused (by rw [compare]; rfl), compare]
  refine ⟨low, high, ?_, ⟨zero, compareF, isZero⟩, ⟨t, e, ?_⟩, preds, ?_⟩
  · intro k after before
    have here := tombstones k after before
    have next : G.inst (k + 1) = .removed ∨ G.inst (k + 1) = .cmpImm size lhs zero := by
      by_cases last : k + 1 = cmpIdx
      · exact .inr (last ▸ compare)
      · exact .inl (tombstones (k + 1) (by omega) (by omega))
    have notTerm : (F.inst (k + 1)).isTerm = false := by
      by_contra term
      have term : (F.inst (k + 1)).isTerm = true := by simpa using term
      rw [← combined.same_of_not_isFusible (isFusible_of_isTerm term)] at term
      obtain next | next := next <;> rw [next] at term <;> cases term
    obtain same | product | ⟨j, rfl, sum⟩ | first | ⟨j, rfl, second⟩ |
      ⟨c, l, isDone, latch, position⟩ := combined.other k
    · rw [← same, here]
    · obtain ⟨fused, found⟩ := Option.isSome_iff_exists.1 product
      have forms := (pairAt_cases found).forms
      rw [(combined.pair k fused found).2] at next
      obtain next | next := next
      · exact absurd next forms.2
      · rw [next] at forms
        exact absurd forms.1.2.2 Bool.false_ne_true
    · obtain ⟨fused, found⟩ := Option.isSome_iff_exists.1 sum
      rw [(combined.pair j fused found).2] at here
      exact absurd here (pairAt_cases found).forms.2
    · obtain ⟨fused, found⟩ := Option.isSome_iff_exists.1 first
      obtain ⟨cond, triple⟩ := tripleAt_cases found
      rw [(combined.triple k fused found).1] at here
      exact absurd here triple.forms.2.1
    · obtain ⟨fused, found⟩ := Option.isSome_iff_exists.1 second
      obtain ⟨cond, triple⟩ := tripleAt_cases found
      rw [triple.forms.2.2] at notTerm
      exact absurd notTerm.symm Bool.false_ne_true
    · obtain ⟨lhs, cond, pred, isLatch⟩ := latchAt_isLatch latch
      obtain ⟨t, e, branch⟩ := isLatch.branch
      have ⟨sub, _⟩ := combined.latch c l isDone latch
      obtain rfl | rfl := position
      · rw [sub] at here
        cases here
      · rw [branch] at notTerm
        cases notTerm
  · rw [← combined.same_of_not_isFused (by rw [branch]; rfl), branch]
  · rw [← combined.same_of_not_isFused (by rw [jump]; rfl), jump]

theorem Combined.isLatch_source (combined : Combined F G done) {b : MirBlock}
    (latch : IsLatch G b l lhs cond pred) : IsLatch F b l lhs cond pred := by
  have tables := combined.tables
  obtain ⟨test, two, subIdx, sub, k, position, passed⟩ := latch
  rw [tables.stop] at two subIdx
  rw [tables.blockParams] at position
  rw [tables.branchBlockparams] at passed
  refine ⟨combined.isTest test, two, subIdx, ?_, k, position, passed⟩
  rw [← combined.same_of_not_isFused (by rw [sub]; rfl), sub]

theorem lt_numBlocks {b i : Nat} (inside : i < F.stop b) : b < F.numBlocks := by
  by_contra out
  rw [VCodeContainer.stop, List.getD_eq_getElem?_getD,
    List.getElem?_eq_none (by simpa [numBlocks] using out)] at inside
  simp at inside

theorem IsTest.inBlock {b : Nat} (test : IsTest F b cmpIdx size lhs cond pred) :
    F.InBlock b cmpIdx := by
  have high := test.high
  exact ⟨lt_numBlocks high, test.low, by omega⟩

/-- The comparison of a test is not the one of an in-block fusion: what stands before
it is a tombstone or the end of another block. -/
theorem IsTest.not_triple {b : Nat} (test : IsTest F b cmpIdx size lhs cond pred)
    (layout : F.Layout) {j : Nat} (next : cmpIdx = j + 1) : tripleAt F j = none := by
  by_contra found
  obtain ⟨fused, found⟩ := Option.ne_none_iff_exists'.1 found
  obtain ⟨cond', triple⟩ := tripleAt_cases found
  have low := test.low
  by_cases first : F.start b = j + 1
  · have ends := layout.isTerm_before test.inBlock.1 first
    rw [triple.plain.1.1] at ends
    exact Bool.false_ne_true ends
  · exact triple.plain.1.2 (test.tombstones j (by omega) (by omega))

theorem IsLatch.jump_next {b : MirBlock} (latch : IsLatch F b l lhs cond pred) :
    F.inst (l.subIdx + 1) = .jump (.block b) := by
  have two := latch.two
  have next : l.subIdx + 1 = F.stop pred - 1 := by rw [latch.subIdx]; omega
  rw [next, latch.jump]

/-- The latches of two test blocks do not share an instruction. -/
theorem IsLatch.disjoint {b c : MirBlock} (latch : IsLatch F b l lhs cond pred)
    (latch' : IsLatch F c l' lhs' cond' pred') (layout : F.Layout) (differ : b ≠ c) :
    l.subIdx ≠ l'.subIdx ∧ l.cmpIdx ≠ l'.cmpIdx := by
  constructor
  · intro same
    have first := latch.jump_next
    rw [same, latch'.jump_next] at first
    cases first
    exact differ rfl
  · intro same
    have first := latch.inBlock
    rw [same] at first
    exact differ (layout.disjoint _ _ _ first latch'.inBlock)

theorem IsLatch.subIdx_ne_cmpIdx {b c : MirBlock} (latch : IsLatch F b l lhs cond pred)
    (latch' : IsLatch F c l' lhs' cond' pred') : l.subIdx ≠ l'.cmpIdx := by
  intro same
  obtain ⟨zero, compare, -⟩ := latch'.compare
  have sub := latch.sub
  rw [same, compare] at sub
  cases sub

/-- No in-block rule touches the instructions of a latch. -/
theorem IsLatch.untouched {b : MirBlock} (latch : IsLatch F b l lhs cond pred) (layout : F.Layout)
    (position : k = l.subIdx ∨ k = l.cmpIdx) :
    (pairAt F k = none ∧ ∀ j, k = j + 1 → pairAt F j = none) ∧
    (tripleAt F k = none ∧ ∀ j, k = j + 1 → tripleAt F j = none) := by
  obtain ⟨zero, compare, -⟩ := latch.compare
  have notMac : isMac (F.inst k) = false := by
    obtain rfl | rfl := position
    · rw [latch.sub]
      rfl
    · rw [compare]
      rfl
  refine ⟨⟨?_, ?_⟩, ?_, ?_⟩
  · by_contra found
    obtain ⟨fused, found⟩ := Option.ne_none_iff_exists'.1 found
    rw [(pairAt_cases found).isMac.1] at notMac
    exact Bool.false_ne_true notMac.symm
  · rintro j rfl
    by_contra found
    obtain ⟨fused, found⟩ := Option.ne_none_iff_exists'.1 found
    rw [(pairAt_cases found).isMac.2.1] at notMac
    exact Bool.false_ne_true notMac.symm
  · by_contra found
    obtain ⟨fused, found⟩ := Option.ne_none_iff_exists'.1 found
    obtain ⟨cond', triple⟩ := tripleAt_cases found
    obtain rfl | rfl := position
    · rw [latch.jump_next] at triple
      exact absurd triple.plain.2.symm Bool.false_ne_true
    · exact triple.compare.2 _ _ _ compare
  · rintro j rfl
    obtain sub | cmp := position
    · by_contra found
      obtain ⟨fused, found⟩ := Option.ne_none_iff_exists'.1 found
      obtain ⟨cond', triple⟩ := tripleAt_cases found
      obtain ⟨size, dst, zero, second⟩ := triple.compare.1
      rw [sub, latch.sub] at second
      cases second
    · exact latch.not_triple layout cmp.symm

section

variable (combined : Combined F G done)
include combined

/-- A latch that has not been applied yet is still there. -/
theorem Combined.isLatch_target (layout : F.Layout) {b : MirBlock}
    (latch : IsLatch F b l lhs cond pred) (pending : ¬ done b) : IsLatch G b l lhs cond pred := by
  have tables := combined.tables
  have kept : ∀ k, k = l.subIdx ∨ k = l.cmpIdx → G.inst k = F.inst k := by
    intro k position
    have ⟨pairs, triples⟩ := latch.untouched layout position
    obtain same | product | ⟨j, next, sum⟩ | first | ⟨j, next, second⟩ |
      ⟨c, l', isDone, found, position'⟩ := combined.other k
    · exact same
    · simp [pairs.1] at product
    · simp [pairs.2 j next] at sum
    · simp [triples.1] at first
    · simp [triples.2 j next] at second
    · obtain ⟨lhs', cond', pred', latch'⟩ := latchAt_isLatch found
      have differ : b ≠ c := fun same => pending (same ▸ isDone)
      have apart := latch.disjoint latch' layout differ
      have cross := latch.subIdx_ne_cmpIdx latch'
      have cross' := latch'.subIdx_ne_cmpIdx latch
      obtain rfl | rfl := position <;> obtain same | same := position'
      · exact absurd same apart.1
      · exact absurd same cross
      · exact absurd same.symm cross'
      · exact absurd same apart.2
  obtain ⟨zero, compare, isZero⟩ := latch.compare
  obtain ⟨t, e, branch⟩ := latch.branch
  obtain ⟨k, position, passed⟩ := latch.param
  exact {
    low := by rw [tables.start]; exact latch.low
    high := by rw [tables.stop]; exact latch.high
    tombstones := by
      intro k after before
      rw [tables.start] at after
      have tombstone := latch.tombstones k after before
      rw [combined.same_of_not_isFusible (by rw [tombstone]; rfl), tombstone]
    compare := ⟨zero, by rw [kept _ (.inr rfl), compare], isZero⟩
    branch := ⟨t, e, by rw [combined.same_of_not_isFusible (by rw [branch]; rfl), branch]⟩
    preds := by rw [tables.blockPreds, latch.preds]
    jump := by
      rw [tables.stop, combined.same_of_not_isFusible (by rw [latch.jump]; rfl), latch.jump]
    two := by rw [tables.stop]; exact latch.two
    subIdx := by rw [tables.stop, latch.subIdx]
    sub := by rw [kept _ (.inl rfl), latch.sub]
    param := ⟨k, by rw [tables.blockParams, position], by rw [tables.branchBlockparams, passed]⟩ }

theorem Combined.mono (done' : MirBlock → Prop) (more : ∀ b, done b → done' b)
    (idle : ∀ b l, done' b → latchAt F b = some (some l) → done b) : Combined F G done' where
  tables := combined.tables
  pair := combined.pair
  triple := combined.triple
  latch := fun b l isDone found => combined.latch b l (idle b l isDone found) found
  other := fun k => (combined.other k).imp_right <| .imp_right <| .imp_right <| .imp_right <|
    .imp_right fun ⟨b, l, isDone, found⟩ => ⟨b, l, more b isDone, found⟩

theorem Combined.applyLatch (layout : F.Layout) {b : MirBlock} (found : latchAt F b = some (some l))
    (pending : ¬ done b) : Combined F (applyLatch G l) fun c => done c ∨ c = b := by
  obtain ⟨lhs, cond, pred, latch⟩ := latchAt_isLatch found
  have cross := latch.subIdx_ne_cmpIdx latch
  have after : ∀ k, (PeepholeCombine.applyLatch G l).inst k =
      if k = l.cmpIdx then .removed
      else if k = l.subIdx then .subsRRImm12 l.size l.dst l.src l.imm else G.inst k := by
    have cmpBound := layout.inBlock_lt latch.inBlock
    have subBound : l.subIdx < F.insts.length := by
      by_contra out
      have sub := latch.sub
      rw [inst_of_le (by omega)] at sub
      cases sub
    intro k
    simp only [PeepholeCombine.applyLatch, inst_setInst, length_setInst, combined.tables.length,
      cmpBound, subBound, and_true]
  have elsewhere : ∀ k, k ≠ l.subIdx → k ≠ l.cmpIdx →
      (PeepholeCombine.applyLatch G l).inst k = G.inst k := by
    intro k notSub notCmp
    rw [after, if_neg notCmp, if_neg notSub]
  have free : ∀ k, (pairAt F k).isSome ∨ (∃ j, k = j + 1 ∧ (pairAt F j).isSome) ∨
      (tripleAt F k).isSome ∨ (∃ j, k = j + 1 ∧ (tripleAt F j).isSome) →
      (PeepholeCombine.applyLatch G l).inst k = G.inst k := by
    intro k role
    by_cases position : k = l.subIdx ∨ k = l.cmpIdx
    · have ⟨pairs, triples⟩ := latch.untouched layout position
      obtain product | ⟨j, next, sum⟩ | first | ⟨j, next, second⟩ := role
      · simp [pairs.1] at product
      · simp [pairs.2 j next] at sum
      · simp [triples.1] at first
      · simp [triples.2 j next] at second
    · rw [not_or] at position
      exact elsewhere k position.1 position.2
  constructor
  · exact combined.tables.trans ((SameTables.setInst _ _ _).trans (.setInst _ _ _))
  · intro k fused isPair
    rw [free k (.inl (by simp [isPair])), free (k + 1) (.inr (.inl ⟨k, rfl, by simp [isPair]⟩))]
    exact combined.pair k fused isPair
  · intro k fused isTriple
    rw [free k (.inr (.inr (.inl (by simp [isTriple])))),
      free (k + 1) (.inr (.inr (.inr ⟨k, rfl, by simp [isTriple]⟩)))]
    exact combined.triple k fused isTriple
  · intro c l' isDone found'
    by_cases same : c = b
    · subst same
      rw [found] at found'
      cases found'
      rw [after, after, if_neg cross, if_pos rfl, if_pos rfl]
      exact ⟨rfl, rfl⟩
    · obtain ⟨lhs', cond', pred', latch'⟩ := latchAt_isLatch found'
      have apart := latch'.disjoint latch layout same
      have kept := combined.latch c l' (isDone.resolve_right same) found'
      rw [elsewhere _ apart.1 (latch'.subIdx_ne_cmpIdx latch),
        elsewhere _ (Ne.symm (latch.subIdx_ne_cmpIdx latch')) apart.2]
      exact kept
  · intro k
    by_cases position : k = l.subIdx ∨ k = l.cmpIdx
    · exact .inr (.inr (.inr (.inr (.inr ⟨b, l, .inr rfl, found, position⟩))))
    · rw [not_or] at position
      rw [elsewhere k position.1 position.2]
      exact (combined.other k).imp_right <| .imp_right <| .imp_right <| .imp_right <|
        .imp_right fun ⟨c, l', isDone, found'⟩ => ⟨c, l', .inl isDone, found'⟩

theorem Combined.latchAt_ne_none (verified : F.Verified) {b : MirBlock} (block : b < F.numBlocks) :
    latchAt G b ≠ none := by
  intro panics
  obtain ⟨cmpIdx, size, lhs, cond, pred, preds, short⟩ := latchAt_eq_none panics
  rw [combined.tables.blockPreds] at preds
  have bounds := verified.bounded pred (verified.predSuccs b pred block (by simp [preds])).1
  rw [combined.tables.stop] at short
  obtain short | ⟨test, short⟩ := short
  · omega
  · have := (combined.isTest test).two_le verified block
    omega

theorem Combined.fuseLatches (verified : F.Verified) (blocks : List MirBlock) (fused : Nat)
    (distinct : blocks.Nodup) (known : ∀ b ∈ blocks, b < F.numBlocks)
    (pending : ∀ b ∈ blocks, ¬ done b) :
    ∃ H count, fuseLatches blocks (G, fused) = some (H, count) ∧
      Combined F H fun b => done b ∨ b ∈ blocks := by
  induction blocks generalizing G done fused with
  | nil => exact ⟨G, fused, rfl, combined.mono _ (fun _ => .inl) fun _ _ h _ => by simpa using h⟩
  | cons b blocks ih =>
    obtain ⟨notLater, distinct⟩ := List.nodup_cons.1 distinct
    have known' : ∀ c ∈ blocks, c < F.numBlocks :=
      fun c mem => known c (List.mem_cons_of_mem _ mem)
    have pending' : ∀ c ∈ blocks, ¬ (done c ∨ c = b) := by
      rintro c mem (isDone | rfl)
      · exact pending c (List.mem_cons_of_mem _ mem) isDone
      · exact notLater mem
    have assoc : ∀ c, (done c ∨ c = b) ∨ c ∈ blocks ↔ done c ∨ c ∈ b :: blocks := by
      intro c
      rw [List.mem_cons, or_assoc]
    simp only [PeepholeCombine.fuseLatches]
    cases here : latchAt G b with
    | none => exact absurd here (combined.latchAt_ne_none verified (known b (by simp)))
    | some latch =>
      cases latch with
      | none =>
        have idle : ∀ l, latchAt F b ≠ some (some l) := by
          intro l found
          obtain ⟨lhs, cond, pred, latch⟩ := latchAt_isLatch found
          rw [latchAt_of_isLatch (combined.isLatch_target verified.toLayout latch
            (pending b (by simp)))] at here
          cases here
        have next := combined.mono (fun c => done c ∨ c = b) (fun _ => .inl)
          fun c l isDone found => isDone.resolve_right fun same => idle l (same ▸ found)
        obtain ⟨H, count, run, result⟩ := ih next fused distinct known' pending'
        exact ⟨H, count, run, by simpa only [assoc] using result⟩
      | some l =>
        obtain ⟨lhs, cond, pred, latch⟩ := latchAt_isLatch here
        have found := latchAt_of_isLatch (combined.isLatch_source latch)
        obtain ⟨H, count, run, result⟩ := ih (combined.applyLatch verified.toLayout found
          (pending b (by simp))) (fused + 1) distinct known' pending'
        exact ⟨H, count, run, by simpa only [assoc] using result⟩

end

/-- The pass does not panic on a verified function, and what it leaves is given by
the fusions of the original instructions. -/
theorem combined_peepholeCombine (verified : F.Verified) :
    ∃ G changed, peepholeCombine F = some (G, changed) ∧
      Combined F G fun b => b < F.numBlocks := by
  have scanned := combined_afterScans verified.toLayout
  have blocks : (scanBlocks 2 (macWindow (buildVregUseCounts F)) (List.range F.numBlocks)
      (F, 0)).1.numBlocks = F.numBlocks := (sameTables_scanBlocks _ (F, 0)).numBlocks
  obtain ⟨G, count, run, result⟩ := scanned.fuseLatches verified (List.range F.numBlocks)
    (scanBlocks 3 (flagWindow (buildVregUseCounts F)) (List.range F.numBlocks)
      ((scanBlocks 2 (macWindow (buildVregUseCounts F)) (List.range F.numBlocks) (F, 0)).1, 0)).2
    List.nodup_range (fun b mem => List.mem_range.1 mem) (fun _ _ => id)
  refine ⟨G, decide (0 < (scanBlocks 2 (macWindow (buildVregUseCounts F)) (List.range F.numBlocks)
    (F, 0)).2) || decide (0 < count), ?_, by simpa using result⟩
  simp only [peepholeCombine, combineFlagFusion, blocks]
  simp only [afterScans, blocks] at run
  rw [run]
  rfl

end CrossBlock

end AnonCompiler.Mir.PeepholeCombine
