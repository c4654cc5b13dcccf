import AnonCompiler.Mir.MemzeroRoutine

/-!
# What the zeroing routine clears

`Cleared` says that the first bytes have been cleared, and no others; every store of the
routine extends the cleared range at its end, whatever tier it belongs to.  The remaining
length is `len - k` also when that wraps around, so the same lemmas describe the run that
clears too much.
-/

set_option autoImplicit false

namespace AnonCompiler.Mir.Memzero

open Lib

variable (dest len : BitVec 64) (mem : Memory)

/-- The first `k` bytes from `dest` on have been cleared, and nothing else. -/
structure Cleared (k : Nat) (s : State) : Prop where
  x0 : s.x0 = dest + BitVec.ofNat 64 k
  x1 : s.x1 = len - BitVec.ofNat 64 k
  x2 : s.x2 = dest
  memory : s.memory = fill mem dest k 0
  touched : ∀ a, s.Touched a ↔ a ∈ byteRange dest k

/-- The whole range has been cleared. -/
structure Finished (s : State) : Prop where
  x2 : s.x2 = dest
  memory : s.memory = fill mem dest len.toNat 0
  touched : ∀ a, s.Touched a ↔ a ∈ byteRange dest len.toNat

/-- Clear the next bytes. -/
def State.advance (s : State) (n : Nat) : State :=
  { s with
    x0 := s.x0 + BitVec.ofNat 64 n
    x1 := s.x1 - BitVec.ofNat 64 n
    memory := fill s.memory s.x0 n 0
    stores := s.stores ++ [(s.x0, n)] }

def State.compared (s : State) (lhs : XReg) (rhs : Operand) : State :=
  { s with flags := .ofSub (s.get lhs) (s.operand rhs) }

variable {dest len mem} {k n : Nat} {s t : State} {z : Dczid}

variable {l : Label} {i : Instr}

theorem touched_store (addr : BitVec 64) (size : Nat) (bytes : Nat → BitVec 8) (a : BitVec 64) :
    (s.store addr size bytes).Touched a ↔ s.Touched a ∨ a ∈ byteRange addr size := by
  simp [State.Touched, State.store, or_and_right, exists_or]

section

variable (cleared : Cleared dest len mem k s)
include cleared

theorem Cleared.advance : Cleared dest len mem (k + n) (s.advance n) where
  x0 := by rw [State.advance, cleared.x0, BitVec.add_assoc, BitVec.ofNat_add]
  x1 := by rw [State.advance, cleared.x1, BitVec.sub_sub, BitVec.ofNat_add]
  x2 := cleared.x2
  memory := by rw [State.advance, cleared.x0, cleared.memory, fill_add mem 0]
  touched a := by
    refine (touched_store s.x0 n (fun _ => 0) a).trans ?_
    rw [cleared.touched, cleared.x0, byteRange_add, Set.mem_union]

theorem Cleared.compared (lhs : XReg) (rhs : Operand) :
    Cleared dest len mem k (s.compared lhs rhs) :=
  ⟨cleared.x0, cleared.x1, cleared.x2, cleared.memory, cleared.touched⟩

/-- While no more than the range has been cleared, `x1` is the rest of it. -/
theorem Cleared.left (within : k ≤ len.toNat) : s.x1.toNat = len.toNat - k := by
  have bound : k < 2 ^ 64 := Nat.lt_of_le_of_lt within len.isLt
  have le : BitVec.ofNat 64 k ≤ len := by
    rw [BitVec.le_def, BitVec.toNat_ofNat, Nat.mod_eq_of_lt bound]
    exact within
  rw [cleared.x1, BitVec.toNat_sub_of_le le, BitVec.toNat_ofNat, Nat.mod_eq_of_lt bound]

theorem Cleared.finished (whole : k = len.toNat) : Finished dest len mem s := by
  subst whole
  exact ⟨cleared.x2, cleared.memory, cleared.touched⟩

end

/-! ## Single lines -/

section Lines

variable {rest lines : List (Line Label Instr)} {d : List (Line Label Instr) × State}
  {l : Label} {r : XReg} {op : Operand}

theorem q0Byte_zero (zero : s.v0 = 0) : s.q0Byte = fun _ => 0 := by
  funext k
  simp [State.q0Byte, zero]

theorem reaches_branch (found : behind l text = some lines)
    (then_ : (routine z).Reaches (lines, s) d) :
    (routine z).Reaches (.instr (.b l) :: rest, s) d := .goto rfl found then_

theorem reaches_cbz_taken (zero : s.get r = 0) (found : behind l text = some lines)
    (then_ : (routine z).Reaches (lines, s) d) :
    (routine z).Reaches (.instr (.cbz r l) :: rest, s) d :=
  .goto (by simp [routine, exec, zero]) found then_

theorem reaches_cbz_next (nonzero : s.get r ≠ 0) (then_ : (routine z).Reaches (rest, s) d) :
    (routine z).Reaches (.instr (.cbz r l) :: rest, s) d :=
  .next (by simp [routine, exec, show ¬ s.get r = 0#64 from nonzero]) then_

/-- A compare and a branch on a smaller left-hand side. -/
theorem reaches_lo_taken (less : (s.get r).toNat < (s.operand op).toNat)
    (found : behind l text = some lines)
    (then_ : (routine z).Reaches (lines, s.compared r op) d) :
    (routine z).Reaches (.instr (.cmp r op) :: .instr (.bCond .lo l) :: rest, s) d := by
  refine .next rfl (.goto ?_ found then_)
  simp [routine, exec, Cond.holds, Flags.ofSub, BitVec.ult, less, State.compared]

theorem reaches_lo_next (notLess : (s.operand op).toNat ≤ (s.get r).toNat)
    (then_ : (routine z).Reaches (rest, s.compared r op) d) :
    (routine z).Reaches (.instr (.cmp r op) :: .instr (.bCond .lo l) :: rest, s) d := by
  refine .next rfl (.next ?_ then_)
  simp [routine, exec, Cond.holds, Flags.ofSub, BitVec.ult, Nat.not_lt.mpr notLess, State.compared]

/-- A compare and a branch on a larger left-hand side. -/
theorem reaches_hi_taken (more : (s.operand op).toNat < (s.get r).toNat)
    (found : behind l text = some lines)
    (then_ : (routine z).Reaches (lines, s.compared r op) d) :
    (routine z).Reaches (.instr (.cmp r op) :: .instr (.bCond .hi l) :: rest, s) d := by
  refine .next rfl (.goto ?_ found then_)
  have differ : ¬ s.get r - s.operand op = 0#64 := by
    intro same
    rw [sub_eq_zero.mp same] at more
    exact Nat.lt_irrefl _ more
  simp [routine, exec, Cond.holds, Flags.ofSub, BitVec.ult, Nat.not_lt.mpr (Nat.le_of_lt more),
    differ, State.compared]

theorem reaches_hi_next (notMore : (s.get r).toNat ≤ (s.operand op).toNat)
    (then_ : (routine z).Reaches (rest, s.compared r op) d) :
    (routine z).Reaches (.instr (.cmp r op) :: .instr (.bCond .hi l) :: rest, s) d := by
  refine .next rfl (.next ?_ then_)
  by_cases less : (s.get r).toNat < (s.operand op).toNat
  · simp [routine, exec, Cond.holds, Flags.ofSub, BitVec.ult, less, State.compared]
  · have same : s.get r = s.operand op := BitVec.eq_of_toNat_eq (by omega)
    simp [routine, exec, Cond.holds, Flags.ofSub, same, State.compared]

theorem reaches_strZr (then_ : (routine z).Reaches (rest, s.advance n) d) :
    (routine z).Reaches
      (.instr (.strZr n .x0 n) :: .instr (.sub .x1 .x1 (.imm n)) :: rest, s) d :=
  .next rfl (.next rfl then_)

theorem exec_strQ0 (zero : s.v0 = 0) : (routine z).exec (.strQ0 .x0 16) s =
    some (.next ((s.store s.x0 16 fun _ => 0).set .x0 (s.x0 + 16#64))) := by
  show some (Goes.next ((s.store s.x0 16 s.q0Byte).set .x0 (s.x0 + 16#64))) = _
  rw [q0Byte_zero zero]

theorem exec_stpQ0 (zero : s.v0 = 0) : (routine z).exec (.stpQ0 .x0 32) s =
    some (.next ((s.store s.x0 32 fun _ => 0).set .x0 (s.x0 + 32#64))) := by
  show some (Goes.next ((s.store s.x0 32 fun k => s.q0Byte (k % 16)).set .x0 (s.x0 + 32#64))) = _
  rw [q0Byte_zero zero]

theorem reaches_strQ0 (zero : s.v0 = 0) (then_ : (routine z).Reaches (rest, s.advance 16) d) :
    (routine z).Reaches
      (.instr (.strQ0 .x0 16) :: .instr (.sub .x1 .x1 (.imm 16)) :: rest, s) d :=
  .next (exec_strQ0 zero) (.next rfl then_)

theorem reaches_stpQ0 (zero : s.v0 = 0) (then_ : (routine z).Reaches (rest, s.advance 32) d) :
    (routine z).Reaches
      (.instr (.stpQ0 .x0 32) :: .instr (.sub .x1 .x1 (.imm 32)) :: rest, s) d :=
  .next (exec_stpQ0 zero) (.next rfl then_)

end Lines

/-! ## Aligning to sixteen bytes -/

/-- The loop of `ALIGN16_HEAD`. -/
def headLoop (use : HeadUse) : List (Line Label Instr) :=
  [.instr (.strZr 1 .x0 1), .instr (.sub .x1 .x1 (.imm 1)), .instr (.subs .x4 .x4 (.imm 1)),
   .instr (.bCond .ne (.head98 use)),
   .label (.head99 use)]

section Head

variable {use : HeadUse} {rest : List (Line Label Instr)}

theorem headLoop_clears (found : behind (.head98 use) text = some (headLoop use ++ rest)) {m : Nat}
    (cleared : Cleared dest len mem k s) (count : s.x4 = BitVec.ofNat 64 (m + 1)) (small : m < 16) :
    ∃ t, (routine z).Reaches (headLoop use ++ rest, s) (rest, t) ∧
      Cleared dest len mem (k + (m + 1)) t ∧ t.v0 = s.v0 ∧ t.x3 = s.x3 := by
  induction m generalizing k s with
  | zero =>
    let t : State := { (s.advance 1) with flags := .ofSub s.x4 1, x4 := s.x4 - 1 }
    refine ⟨t, reaches_strZr (.next rfl (.next ?_ (.label .refl))), ?_, rfl, rfl⟩
    · simp [routine, exec, Cond.holds, Flags.ofSub, State.set, State.get, State.operand,
        State.advance, count, t]
    · have next := cleared.advance (n := 1)
      exact ⟨next.x0, next.x1, next.x2, next.memory, next.touched⟩
  | succ m ih =>
    let t : State := { (s.advance 1) with flags := .ofSub s.x4 1, x4 := s.x4 - 1 }
    have next := cleared.advance (n := 1)
    have next' : Cleared dest len mem (k + 1) t :=
      ⟨next.x0, next.x1, next.x2, next.memory, next.touched⟩
    have count' : t.x4 = BitVec.ofNat 64 (m + 1) := by
      show s.x4 - 1#64 = _
      rw [count]
      apply BitVec.eq_of_toNat_eq
      simp only [BitVec.toNat_sub, BitVec.toNat_ofNat]
      omega
    obtain ⟨u, reaches, cleared', v0, x3⟩ := ih next' count' (by omega)
    refine ⟨u, reaches_strZr (.next rfl (.goto ?_ found reaches)), ?_, v0, x3⟩
    · have more : ¬ s.x4 - 1#64 = 0#64 := by
        rw [show s.x4 - 1#64 = BitVec.ofNat 64 (m + 1) from count']
        intro none
        have := congrArg BitVec.toNat none
        simp only [BitVec.toNat_ofNat] at this
        omega
      simp [routine, exec, Cond.holds, Flags.ofSub, State.set, State.get, State.operand,
        State.advance, more, t]
    · rw [show k + (m + 1 + 1) = k + 1 + (m + 1) by omega]
      exact cleared'

variable (use rest) in
/-- `ALIGN16_HEAD` clears up to the next multiple of sixteen. -/
theorem align16Head_clears (found98 : behind (.head98 use) text = some (headLoop use ++ rest))
    (found99 : behind (.head99 use) text = some rest) (cleared : Cleared dest len mem k s) :
    ∃ t, (routine z).Reaches (align16Head use ++ rest, s) (rest, t) ∧
      Cleared dest len mem (k + (-s.x0).toNat % 16) t ∧ t.v0 = s.v0 ∧ t.x3 = s.x3 := by
  have low : (s.x0 &&& 15#64).toNat = s.x0.toNat % 16 := by
    rw [BitVec.toNat_and]
    exact Nat.and_two_pow_sub_one_eq_mod s.x0.toNat 4
  have size := s.x0.isLt
  by_cases aligned : s.x0.toNat % 16 = 0
  · let t : State := { s with x4 := s.x0 &&& 15#64 }
    have zero : s.x0 &&& 15#64 = 0 := BitVec.eq_of_toNat_eq (by rw [low, aligned]; rfl)
    have none : (-s.x0).toNat % 16 = 0 := by
      rw [BitVec.toNat_neg]
      omega
    refine ⟨t, .next rfl (reaches_cbz_taken zero found99 .refl), ?_, rfl, rfl⟩
    rw [none]
    exact ⟨cleared.x0, cleared.x1, cleared.x2, cleared.memory, cleared.touched⟩
  · obtain ⟨m, isRest⟩ : ∃ m, (-s.x0).toNat % 16 = m + 1 := by
      refine ⟨(-s.x0).toNat % 16 - 1, ?_⟩
      rw [BitVec.toNat_neg]
      omega
    let t : State := { s with x4 := 16#64 - (s.x0 &&& 15#64), x5 := 16#64 }
    have cleared' : Cleared dest len mem k t :=
      ⟨cleared.x0, cleared.x1, cleared.x2, cleared.memory, cleared.touched⟩
    have count : t.x4 = BitVec.ofNat 64 (m + 1) := by
      apply BitVec.eq_of_toNat_eq
      show (16#64 - (s.x0 &&& 15#64)).toNat = _
      rw [BitVec.toNat_neg] at isRest
      rw [BitVec.toNat_sub, low]
      simp only [BitVec.toNat_ofNat]
      omega
    obtain ⟨u, reaches, cleared'', v0, x3⟩ :=
      headLoop_clears found98 cleared' count (by omega)
    refine ⟨u, .next rfl (reaches_cbz_next ?_ (.next rfl (.next rfl (.label reaches)))), ?_, v0, x3⟩
    · intro zero
      have := congrArg BitVec.toNat (show s.x0 &&& 15#64 = 0#64 from zero)
      rw [low] at this
      exact aligned this
    · rw [isRest]
      exact cleared''

end Head

/-- The address behind the aligned part. -/
theorem Cleared.aligned {h : Nat} (cleared : Cleared dest len mem k s)
    (cleared' : Cleared dest len mem (k + h) t) (isHead : h = (-s.x0).toNat % 16) :
    t.x0.toNat % 16 = 0 := by
  have step : t.x0 = s.x0 + BitVec.ofNat 64 h := by
    rw [cleared'.x0, cleared.x0, BitVec.add_assoc, BitVec.ofNat_add]
  have size := s.x0.isLt
  rw [BitVec.toNat_neg] at isHead
  rw [step, BitVec.toNat_add, BitVec.toNat_ofNat]
  omega

/-! ## The tails -/

/-- The run comes to the end of the routine with the whole range cleared. -/
def Finishes (z : Dczid) (dest len : BitVec 64) (mem : Memory)
    (c : List (Line Label Instr) × State) : Prop :=
  ∃ t, (routine z).Reaches c (codeAt .done, t) ∧ Finished dest len mem t

theorem Finishes.of_reaches {c d : List (Line Label Instr) × State}
    (reaches : (routine z).Reaches c d)
    (finishes : Finishes z dest len mem d) : Finishes z dest len mem c := by
  obtain ⟨t, ends, finished⟩ := finishes
  exact ⟨t, reaches.trans ends, finished⟩

theorem found_codeAt (known : (behind l text).isSome) : behind l text = some (codeAt l) := by
  obtain ⟨lines, found⟩ := Option.isSome_iff_exists.mp known
  rw [codeAt, found, Option.getD_some]

theorem toNat_imm (n : Nat) (small : n < 2 ^ 64) : (s.operand (.imm n)).toNat = n := by
  rw [State.operand, BitVec.toNat_ofNat, Nat.mod_eq_of_lt small]

section

variable {rest : List (Line Label Instr)} (cleared : Cleared dest len mem k s)
  (within : k ≤ len.toNat)
include cleared within

/-- The branch is taken with fewer than `n` bytes left. -/
theorem Cleared.leaves (less : len.toNat - k < n) (small : n ≤ 256)
    (known : (behind l text).isSome)
    (finishes : Finishes z dest len mem (codeAt l, s.compared .x1 (.imm n))) :
    Finishes z dest len mem (.instr (.cmp .x1 (.imm n)) :: .instr (.bCond .lo l) :: rest, s) := by
  refine .of_reaches (reaches_lo_taken ?_ (found_codeAt known) .refl) finishes
  rw [toNat_imm n (by omega)]
  show s.x1.toNat < n
  rw [cleared.left within]
  exact less

/-- The branch is not taken with `n` bytes left. -/
theorem Cleared.stays (enough : n ≤ len.toNat - k)
    (finishes : Finishes z dest len mem (rest, s.compared .x1 (.imm n))) :
    Finishes z dest len mem (.instr (.cmp .x1 (.imm n)) :: .instr (.bCond .lo l) :: rest, s) := by
  refine .of_reaches (reaches_lo_next ?_ .refl) finishes
  rw [toNat_imm n (by have := len.isLt; omega)]
  show n ≤ s.x1.toNat
  rw [cleared.left within]
  exact enough

end

/-- A store of `n` bytes when that many are left. -/
def scalarStep (n : Nat) (l : Label) : List (Line Label Instr) :=
  [.instr (.cmp .x1 (.imm n)), .instr (.bCond .lo l), .instr (.strZr n .x0 n),
   .instr (.sub .x1 .x1 (.imm n)),
   .instr (.cbz .x1 .done),
   .label l]

theorem scalarStep_clears {rest : List (Line Label Instr)} (found : behind l text = some rest)
    (positive : 0 < n) (small : n ≤ 16) (cleared : Cleared dest len mem k s)
    (within : k < len.toNat) (few : len.toNat - k < 2 * n) :
    Finishes z dest len mem (scalarStep n l ++ rest, s) ∨
      ∃ k' t, (routine z).Reaches (scalarStep n l ++ rest, s) (rest, t) ∧
        Cleared dest len mem k' t ∧ k' < len.toNat ∧ len.toNat - k' < n := by
  have left := cleared.left (Nat.le_of_lt within)
  have isImm : (s.operand (.imm n)).toNat = n := toNat_imm n (by omega)
  by_cases less : len.toNat - k < n
  · refine .inr ⟨k, _, reaches_lo_taken ?_ found .refl, cleared.compared _ _, within, less⟩
    rw [isImm]
    show s.x1.toNat < n
    omega
  · have stored := (cleared.compared .x1 (.imm n)).advance (n := n)
    have left' := stored.left (by omega)
    have enter : ∀ d, (routine z).Reaches
        (.instr (.cbz .x1 .done) :: .label l :: rest, (s.compared .x1 (.imm n)).advance n) d →
        (routine z).Reaches (scalarStep n l ++ rest, s) d := by
      intro d then_
      refine reaches_lo_next ?_ (reaches_strZr then_)
      rw [isImm]
      show n ≤ s.x1.toNat
      omega
    by_cases last : len.toNat = k + n
    · refine .inl ⟨_, enter _ (reaches_cbz_taken ?_ (found_codeAt rfl) .refl),
        stored.finished last.symm⟩
      exact BitVec.eq_of_toNat_eq (by
        show ((s.compared .x1 (.imm n)).advance n).x1.toNat = 0
        omega)
    · refine .inr ⟨k + n, _, enter _ (reaches_cbz_next ?_ (.label .refl)),
        stored, by omega, by omega⟩
      intro zero
      have := congrArg BitVec.toNat
        (show ((s.compared .x1 (.imm n)).advance n).x1 = 0#64 from zero)
      rw [left'] at this
      simp only [BitVec.toNat_ofNat] at this
      omega

section

variable (cleared : Cleared dest len mem k s) (within : k ≤ len.toNat)
include cleared within

theorem tailScalar_finishes (few : len.toNat - k < 16) :
    Finishes z dest len mem (codeAt .tailScalar, s) := by
  have left := cleared.left within
  have code : codeAt .tailScalar = .instr (.cbz .x1 .done) ::
      (scalarStep 8 .tail4 ++ codeAt .tail4) := rfl
  have code4 : codeAt .tail4 = scalarStep 4 .tail2 ++ codeAt .tail2 := rfl
  have code2 : codeAt .tail2 = scalarStep 2 .tail1 ++ codeAt .tail1 := rfl
  have code1 : codeAt .tail1 = .instr (.strZr 1 .x0 0) :: .instr (.b .done) :: .label .done ::
      codeAt .done := rfl
  rw [code]
  by_cases none : k = len.toNat
  · refine ⟨s, reaches_cbz_taken ?_ (found_codeAt rfl) .refl, cleared.finished none⟩
    exact BitVec.eq_of_toNat_eq (by
      show s.x1.toNat = 0
      omega)
  refine .of_reaches (reaches_cbz_next (fun zero => ?_) .refl) ?_
  · have := congrArg BitVec.toNat (show s.x1 = 0#64 from zero)
    rw [left] at this
    simp only [BitVec.toNat_ofNat] at this
    omega
  rcases scalarStep_clears (n := 8) (l := .tail4) (found_codeAt rfl) (by omega) (by omega) cleared
    (by omega)
    few with finishes | ⟨k₄, s₄, reaches, cleared₄, within₄, few₄⟩
  · exact finishes
  refine .of_reaches reaches ?_
  rw [code4]
  rcases scalarStep_clears (n := 4) (l := .tail2) (found_codeAt rfl) (by omega)
    (by omega) cleared₄ within₄
    few₄ with finishes | ⟨k₂, s₂, reaches, cleared₂, within₂, few₂⟩
  · exact finishes
  refine .of_reaches reaches ?_
  rw [code2]
  rcases scalarStep_clears (n := 2) (l := .tail1) (found_codeAt rfl) (by omega)
    (by omega) cleared₂ within₂
    few₂ with finishes | ⟨k₁, s₁, reaches, cleared₁, within₁, few₁⟩
  · exact finishes
  refine .of_reaches reaches ?_
  rw [code1]
  have stored := cleared₁.advance (n := 1)
  refine ⟨_, .next rfl (reaches_branch (found_codeAt rfl) .refl), ?_⟩
  have whole := stored.finished (show k₁ + 1 = len.toNat by omega)
  exact ⟨whole.x2, whole.memory, whole.touched⟩

theorem tailQLoop_finishes (zero : s.v0 = 0) : Finishes z dest len mem (codeAt .tailQLoop, s) := by
  induction rest : len.toNat - k using Nat.strong_induction_on generalizing k s with
  | _ r ih =>
    have code : codeAt .tailQLoop = .instr (.cmp .x1 (.imm 32)) :: .instr (.bCond .lo .tail16) ::
        .instr (.stpQ0 .x0 32) :: .instr (.sub .x1 .x1 (.imm 32)) :: .instr (.b .tailQLoop) ::
        .label .tail16 :: codeAt .tail16 := rfl
    have code16 : codeAt .tail16 = .instr (.cmp .x1 (.imm 16)) ::
        .instr (.bCond .lo .tailScalar) :: .instr (.strQ0 .x0 16) ::
        .instr (.sub .x1 .x1 (.imm 16)) :: .instr (.b .tailQLoop) :: .label .tailScalar ::
        codeAt .tailScalar := rfl
    have compared := cleared.compared .x1 (.imm 32)
    rw [code]
    by_cases less : len.toNat - k < 32
    · refine cleared.leaves within less (by omega) rfl ?_
      rw [code16]
      have compared' := compared.compared .x1 (.imm 16)
      by_cases few : len.toNat - k < 16
      · exact compared.leaves within few (by omega) rfl (tailScalar_finishes compared' within few)
      · exact compared.stays within (by omega) (.of_reaches
          (reaches_strQ0 zero (reaches_branch (found_codeAt rfl) .refl))
          (ih (len.toNat - (k + 16)) (by omega) compared'.advance (by omega) zero rfl))
    · exact cleared.stays within (by omega) (.of_reaches
        (reaches_stpQ0 zero (reaches_branch (found_codeAt rfl) .refl))
        (ih (len.toNat - (k + 32)) (by omega) compared.advance (by omega) zero rfl))

theorem tailQ_finishes (zero : s.v0 = 0) : Finishes z dest len mem (codeAt .tailQ, s) := by
  have size := len.isLt
  have code : codeAt .tailQ = .instr (.cmp .x1 (.imm 16)) :: .instr (.bCond .lo .tailScalar) ::
      (align16Head .tailQ ++ (.label .tailQLoop :: codeAt .tailQLoop)) := rfl
  have compared := cleared.compared .x1 (.imm 16)
  rw [code]
  by_cases few : len.toNat - k < 16
  · exact cleared.leaves within few (by omega) rfl (tailScalar_finishes compared within few)
  · obtain ⟨t, reaches, cleared', v0, -⟩ :=
      align16Head_clears .tailQ (.label .tailQLoop :: codeAt .tailQLoop) rfl rfl compared
    exact cleared.stays within (by omega) (.of_reaches (reaches.trans (.label .refl))
      (tailQLoop_finishes cleared' (by omega) (v0.trans zero)))

end

/-! ## The tiers -/

section

variable (cleared : Cleared dest len mem k s) (within : k ≤ len.toNat)
include cleared within

theorem tier3Loop_finishes (zero : s.v0 = 0) : Finishes z dest len mem (codeAt .tier3Loop, s) := by
  induction rest : len.toNat - k using Nat.strong_induction_on generalizing k s with
  | _ r ih =>
    have code : codeAt .tier3Loop = .instr (.cmp .x1 (.imm 32)) :: .instr (.bCond .lo .tailQ) ::
        .instr (.stpQ0 .x0 32) :: .instr (.sub .x1 .x1 (.imm 32)) :: .instr (.b .tier3Loop) ::
        .label .tier4 :: codeAt .tier4 := rfl
    have compared := cleared.compared .x1 (.imm 32)
    rw [code]
    by_cases less : len.toNat - k < 32
    · exact cleared.leaves within less (by omega) rfl (tailQ_finishes compared within zero)
    · exact cleared.stays within (by omega) (.of_reaches
        (reaches_stpQ0 zero (reaches_branch (found_codeAt rfl) .refl))
        (ih (len.toNat - (k + 32)) (by omega) compared.advance (by omega) zero rfl))

theorem t2Sixteen_finishes (few : len.toNat - k < 32) (zero : s.v0 = 0) :
    Finishes z dest len mem (codeAt .t2Sixteen, s) := by
  have code : codeAt .t2Sixteen = .instr (.cmp .x1 (.imm 16)) ::
      .instr (.bCond .lo .tailScalar) :: .instr (.strQ0 .x0 16) ::
      .instr (.sub .x1 .x1 (.imm 16)) :: .instr (.b .tailScalar) :: .label .tier3 ::
      codeAt .tier3 := rfl
  have compared := cleared.compared .x1 (.imm 16)
  rw [code]
  by_cases less : len.toNat - k < 16
  · exact cleared.leaves within less (by omega) rfl (tailScalar_finishes compared within less)
  · exact cleared.stays within (by omega) (.of_reaches
      (reaches_strQ0 zero (reaches_branch (found_codeAt rfl) .refl))
      (tailScalar_finishes compared.advance (by omega) (by omega)))

/-- The part of tier 2 behind the aligned head: at most two pairs of sixteen bytes. -/
theorem t2Unroll_finishes (few : len.toNat - k ≤ 64) (zero : s.v0 = 0) :
    Finishes z dest len mem (codeAt .t2Unroll, s) := by
  have code : codeAt .t2Unroll = .instr (.cmp .x1 (.imm 32)) :: .instr (.bCond .lo .t2Sixteen) ::
      .instr (.stpQ0 .x0 32) :: .instr (.sub .x1 .x1 (.imm 32)) ::
      .instr (.cmp .x1 (.imm 32)) :: .instr (.bCond .lo .t2Sixteen) ::
      .instr (.stpQ0 .x0 32) :: .instr (.sub .x1 .x1 (.imm 32)) ::
      .label .t2Sixteen :: codeAt .t2Sixteen := rfl
  have compared := cleared.compared .x1 (.imm 32)
  rw [code]
  by_cases less : len.toNat - k < 32
  · exact cleared.leaves within less (by omega) rfl (t2Sixteen_finishes compared within less zero)
  have stored := compared.advance (n := 32)
  refine cleared.stays within (by omega) (.of_reaches (reaches_stpQ0 zero .refl) ?_)
  have compared' := stored.compared .x1 (.imm 32)
  by_cases less' : len.toNat - (k + 32) < 32
  · exact stored.leaves (by omega) less' (by omega) rfl
      (t2Sixteen_finishes compared' (by omega) less' zero)
  · exact stored.stays (by omega) (by omega) (.of_reaches (reaches_stpQ0 zero (.label .refl))
      (t2Sixteen_finishes compared'.advance (by omega) (by omega) zero))

end

/-! ## Clearing block by block -/

theorem Dczid.block_eq (z : Dczid) : z.block = 2 ^ (z.bs + 2) := by
  rw [Dczid.block, Nat.pow_add, Nat.mul_comm]

theorem Dczid.block_le (z : Dczid) : 4 ≤ z.block ∧ z.block ≤ 2048 := by
  have low : 2 ^ 2 ≤ 2 ^ (z.bs + 2) := Nat.pow_le_pow_right (by omega) (by omega)
  have high : 2 ^ (z.bs + 2) ≤ 2 ^ 11 :=
    Nat.pow_le_pow_right (by omega) (by have := z.permitted; omega)
  rw [z.block_eq]
  omega

theorem Dczid.block_dvd (z : Dczid) : z.block ∣ 2 ^ 64 := by
  rw [z.block_eq]
  exact Nat.pow_dvd_pow 2 (by have := z.permitted; omega)

/-- A block is a multiple of sixteen bytes, or the next multiple of sixteen is one of it. -/
theorem Dczid.block_cases (z : Dczid) : 16 ∣ z.block ∨ z.block ∣ 16 ∧ z.block < 16 := by
  rw [z.block_eq, show 16 = 2 ^ 4 from rfl]
  by_cases large : 4 ≤ z.bs + 2
  · exact .inl (Nat.pow_dvd_pow 2 large)
  · exact .inr ⟨Nat.pow_dvd_pow 2 (by omega), Nat.pow_lt_pow_right (by omega) (by omega)⟩

theorem toNat_block (z : Dczid) : (BitVec.ofNat 64 z.block).toNat = z.block := by
  rw [BitVec.toNat_ofNat, Nat.mod_eq_of_lt (by have := z.block_le; omega)]

theorem toNat_and_block (z : Dczid) (x : BitVec 64) :
    (x &&& (BitVec.ofNat 64 z.block - 1)).toNat = x.toNat % z.block := by
  have bounds := z.block_le
  have mask : (BitVec.ofNat 64 z.block - 1).toNat = 2 ^ (z.bs + 2) - 1 := by
    rw [← z.block_eq, BitVec.toNat_sub_of_le, toNat_block]
    · rfl
    · rw [BitVec.le_def, toNat_block]
      show 1 ≤ _
      omega
  rw [BitVec.toNat_and, mask, Nat.and_two_pow_sub_one_eq_mod, z.block_eq]

/-- `x3` becomes the size of a block. -/
theorem shifted_block {z : Dczid} (allowed : z.dzp = false) :
    4#64 <<< ((z.value &&& 15#64).toNat % 64) = BitVec.ofNat 64 z.block := by
  have sizes : ∀ bs : Fin 10, 4#64 <<< ((BitVec.ofNat 64 (0 + bs) &&& 15#64).toNat % 64) =
      BitVec.ofNat 64 (4 * 2 ^ bs.val) := by decide
  rw [Dczid.value, allowed, if_neg Bool.false_ne_true]
  exact sizes ⟨z.bs, Nat.lt_succ_of_le z.permitted⟩

theorem getLsbD_value (z : Dczid) : z.value.getLsbD 4 = z.dzp := by
  have bits : ∀ (dzp : Bool) (bs : Fin 10),
      (BitVec.ofNat 64 ((if dzp then 16 else 0) + bs)).getLsbD 4 = dzp := by decide
  exact bits z.dzp ⟨z.bs, Nat.lt_succ_of_le z.permitted⟩

theorem tier4Zva_finishes (allowed : z.dzp = false) (cleared : Cleared dest len mem k s)
    (within : k ≤ len.toNat) (zero : s.v0 = 0) (size3 : s.x3 = BitVec.ofNat 64 z.block)
    (aligned : s.x0.toNat % z.block = 0) : Finishes z dest len mem (codeAt .tier4Zva, s) := by
  induction rest : len.toNat - k using Nat.strong_induction_on generalizing k s with
  | _ r ih =>
    have left := cleared.left within
    have size := len.isLt
    have bounds := z.block_le
    have code : codeAt .tier4Zva = .instr (.cmp .x1 (.reg .x3)) :: .instr (.bCond .lo .tailQ) ::
        .instr (.dcZva .x0) :: .instr (.add .x0 .x0 .x3) :: .instr (.sub .x1 .x1 (.reg .x3)) ::
        .instr (.b .tier4Zva) :: .label .tier4Stp :: codeAt .tier4Stp := rfl
    have compared := cleared.compared .x1 (.reg .x3)
    have isBlock : (s.operand (.reg .x3)).toNat = z.block := by
      show s.x3.toNat = z.block
      rw [size3, toNat_block]
    rw [code]
    by_cases less : len.toNat - k < z.block
    · refine .of_reaches (reaches_lo_taken ?_ (found_codeAt rfl) .refl)
        (tailQ_finishes compared within zero)
      rw [isBlock]
      show s.x1.toNat < z.block
      omega
    · let t := (s.compared .x1 (.reg .x3)).advance z.block
      have stored : Cleared dest len mem (k + z.block) t := compared.advance
      have start : BitVec.ofNat 64 (s.x0.toNat - s.x0.toNat % z.block) = s.x0 := by
        rw [aligned, Nat.sub_zero, BitVec.ofNat_toNat, BitVec.setWidth_eq]
      have zeroed : (routine z).exec (.dcZva .x0) (s.compared .x1 (.reg .x3)) =
          some (.next ((s.compared .x1 (.reg .x3)).store s.x0 z.block fun _ => 0)) := by
        show (if z.dzp = true then none else some (Goes.next ((s.compared .x1 (.reg .x3)).store
          (BitVec.ofNat 64 (s.x0.toNat - s.x0.toNat % z.block)) z.block fun _ => 0))) = _
        rw [allowed, if_neg Bool.false_ne_true, start]
      have isAdvance : ((((s.compared .x1 (.reg .x3)).store s.x0 z.block fun _ => 0).set .x0
          (s.x0 + s.x3)).set .x1 (s.x1 - s.x3)) = t := by
        rw [size3]
        rfl
      have aligned' : t.x0.toNat % z.block = 0 := by
        show (s.x0 + BitVec.ofNat 64 z.block).toNat % z.block = 0
        rw [BitVec.toNat_add, toNat_block, Nat.mod_mod_of_dvd _ z.block_dvd, Nat.add_mod_right,
          aligned]
      refine .of_reaches (reaches_lo_next ?_ (.next zeroed (.next rfl (.next rfl
        (reaches_branch (found_codeAt rfl) .refl))))) ?_
      · rw [isBlock]
        show z.block ≤ s.x1.toNat
        omega
      · show Finishes z dest len mem (codeAt .tier4Zva, ((((s.compared .x1 (.reg .x3)).store s.x0
          z.block fun _ => 0).set .x0 (s.x0 + s.x3)).set .x1 (s.x1 - s.x3)))
        rw [isAdvance]
        exact ih (len.toNat - (k + z.block)) (by omega) stored (by omega) zero size3 aligned' rfl

/-- The stores up to the next block. -/
theorem tier4Blk_clears {m : Nat} (cleared : Cleared dest len mem k s) (zero : s.v0 = 0)
    (count : s.x4 = BitVec.ofNat 64 m) (sixteens : m % 16 = 0) (small : m ≤ 2048) :
    ∃ t, (routine z).Reaches (codeAt .tier4Blk, s) (codeAt .tier4Zva, t) ∧
      Cleared dest len mem (k + m) t ∧ t.v0 = 0 ∧ t.x3 = s.x3 := by
  induction m using Nat.strong_induction_on generalizing k s with
  | _ m ih =>
    have code : codeAt .tier4Blk = .instr (.cbz .x4 .tier4Zva) :: .instr (.cmp .x4 (.imm 32)) ::
        .instr (.bCond .lo .tier4Blk16) :: .instr (.stpQ0 .x0 32) ::
        .instr (.sub .x4 .x4 (.imm 32)) :: .instr (.sub .x1 .x1 (.imm 32)) ::
        .instr (.b .tier4Blk) :: .label .tier4Blk16 :: codeAt .tier4Blk16 := rfl
    have code16 : codeAt .tier4Blk16 = .instr (.cmp .x4 (.imm 16)) ::
        .instr (.bCond .lo .tier4Blks) :: .instr (.strQ0 .x0 16) ::
        .instr (.sub .x4 .x4 (.imm 16)) :: .instr (.sub .x1 .x1 (.imm 16)) ::
        .instr (.b .tier4Blk) :: .label .tier4Blks :: codeAt .tier4Blks := rfl
    have toNat : s.x4.toNat = m := by
      rw [count, BitVec.toNat_ofNat]
      omega
    rw [code]
    by_cases none : m = 0
    · subst none
      exact ⟨s, reaches_cbz_taken count (found_codeAt rfl) .refl, cleared, zero, rfl⟩
    have nonzero : s.get .x4 ≠ 0 := by
      intro same
      have := congrArg BitVec.toNat (show s.x4 = 0#64 from same)
      rw [toNat] at this
      exact none this
    have compared := cleared.compared .x4 (.imm 32)
    by_cases less : m < 32
    · -- sixteen bytes are left, since it is a multiple of sixteen
      obtain rfl : m = 16 := by omega
      let u := (s.compared .x4 (.imm 32)).compared .x4 (.imm 16)
      let t : State := { u.advance 16 with x4 := s.x4 - 16#64 }
      have stored := (compared.compared .x4 (.imm 16)).advance (n := 16)
      have stored' : Cleared dest len mem (k + 16) t :=
        ⟨stored.x0, stored.x1, stored.x2, stored.memory, stored.touched⟩
      have done : t.x4 = BitVec.ofNat 64 0 := by
        show s.x4 - 16#64 = 0#64
        rw [count]
        rfl
      obtain ⟨v, reaches, cleared', v0, x3⟩ := ih 0 (by omega) stored' zero done rfl (by omega)
      refine ⟨v, reaches_cbz_next nonzero (reaches_lo_taken ?_ (found_codeAt rfl) ?_),
        cleared', v0, x3⟩
      · rw [toNat_imm 32 (by omega)]
        show s.x4.toNat < 32
        omega
      · rw [code16]
        refine reaches_lo_next ?_ (.next (exec_strQ0 zero) (.next rfl (.next rfl
          (reaches_branch (found_codeAt rfl) reaches))))
        rw [toNat_imm 16 (by omega)]
        show 16 ≤ s.x4.toNat
        omega
    · let t : State := { (s.compared .x4 (.imm 32)).advance 32 with x4 := s.x4 - 32#64 }
      have stored := compared.advance (n := 32)
      have stored' : Cleared dest len mem (k + 32) t :=
        ⟨stored.x0, stored.x1, stored.x2, stored.memory, stored.touched⟩
      have count' : t.x4 = BitVec.ofNat 64 (m - 32) := by
        apply BitVec.eq_of_toNat_eq
        show (s.x4 - 32#64).toNat = _
        rw [BitVec.toNat_sub, toNat]
        simp only [BitVec.toNat_ofNat]
        omega
      obtain ⟨v, reaches, cleared', v0, x3⟩ := ih (m - 32) (by omega) stored' zero count'
        (by omega) (by omega)
      rw [show k + 32 + (m - 32) = k + m by omega] at cleared'
      refine ⟨v, reaches_cbz_next nonzero (reaches_lo_next ?_ (.next (exec_stpQ0 zero) (.next rfl
        (.next rfl (reaches_branch (found_codeAt rfl) reaches))))), cleared', v0, x3⟩
      rw [toNat_imm 32 (by omega)]
      show 32 ≤ s.x4.toNat
      omega

/-- A distance of less than a block that ends at a multiple of the block. -/
theorem distance_block (z : Dczid) (less : k < z.block)
    (aligned : (dest + BitVec.ofNat 64 k).toNat % z.block = 0) : (-dest).toNat % z.block = k := by
  obtain ⟨c, whole⟩ := z.block_dvd
  obtain ⟨e, multiple⟩ := Nat.dvd_of_mod_eq_zero aligned
  have bounds := z.block_le
  have size := (dest + BitVec.ofNat 64 k).isLt
  have back : -dest = BitVec.ofNat 64 k - (dest + BitVec.ofNat 64 k) := by
    rw [BitVec.add_comm, ← BitVec.sub_sub, BitVec.sub_self, BitVec.zero_sub]
  have le : e ≤ c := by
    rw [multiple, whole] at size
    exact Nat.le_of_lt (Nat.lt_of_mul_lt_mul_left size)
  rw [back, BitVec.toNat_sub, BitVec.toNat_ofNat, Nat.mod_eq_of_lt (show k < 2 ^ 64 by omega),
    Nat.mod_mod_of_dvd _ z.block_dvd, multiple, whole, ← Nat.mul_sub, Nat.mul_add_mod,
    Nat.mod_eq_of_lt less]

/-- Tier 4 first clears up to the next block, whether or not that many bytes are left. -/
theorem tier4_aligns (allowed : z.dzp = false) (cleared : Cleared dest len mem 0 s)
    (zero : s.v0 = 0) :
    ∃ k t, (routine z).Reaches (codeAt .tier4, s) (codeAt .tier4Zva, t) ∧
      Cleared dest len mem k t ∧ t.v0 = 0 ∧ t.x3 = BitVec.ofNat 64 z.block ∧
      t.x0.toNat % z.block = 0 ∧ (k < z.block ∨ k < 16) := by
  have bounds := z.block_le
  let blkEntry : List (Line Label Instr) := .instr (.sub .x4 .x3 (.imm 1)) ::
    .instr (.and .x5 .x0 (.reg .x4)) :: .instr (.cbz .x5 .tier4Zva) ::
    .instr (.sub .x4 .x3 (.reg .x5)) :: .label .tier4Blk :: codeAt .tier4Blk
  have code : codeAt .tier4 = .instr (.mrsDczid .x3) :: .instr (.tbnz .x3 4 .tier4Stp) ::
      .instr (.and .x3 .x3 (.imm 0xf)) :: .instr (.mov .x4 (.imm 4)) ::
      .instr (.lsl .x3 .x4 .x3) :: (align16Head .tier4 ++ blkEntry) := rfl
  let u : State := { s with
    x3 := 4#64 <<< ((z.value &&& 15#64).toNat % 64)
    x4 := 4#64 }
  have clearedU : Cleared dest len mem 0 u :=
    ⟨cleared.x0, cleared.x1, cleared.x2, cleared.memory, cleared.touched⟩
  obtain ⟨v, head, clearedV, v0, x3⟩ :=
    align16Head_clears .tier4 blkEntry rfl rfl clearedU
  have small : (-u.x0).toNat % 16 < 16 := Nat.mod_lt _ (by omega)
  have aligned16 := clearedU.aligned clearedV rfl
  rw [Nat.zero_add] at clearedV
  generalize (-u.x0).toNat % 16 = h at clearedV small
  have x3 : v.x3 = BitVec.ofNat 64 z.block := x3.trans (shifted_block allowed)
  have enter : ∀ d, (routine z).Reaches (blkEntry, v) d →
      (routine z).Reaches (codeAt .tier4, s) d := by
    intro d then_
    have permitted : (routine z).exec (.tbnz .x3 4 .tier4Stp) (s.set .x3 z.value) =
        some (.next (s.set .x3 z.value)) := by
      show some (if z.value.getLsbD 4 = true then Goes.goto Label.tier4Stp (s.set .x3 z.value)
        else Goes.next (s.set .x3 z.value)) = _
      rw [getLsbD_value, allowed, if_neg Bool.false_ne_true]
    rw [code]
    exact .next rfl (.next permitted (.next rfl (.next rfl (.next rfl (head.trans then_)))))
  let mask := BitVec.ofNat 64 z.block - 1#64
  have offset : (v.x0 &&& mask).toNat = v.x0.toNat % z.block := toNat_and_block z v.x0
  let w : State := { v with x4 := v.x3 - 1#64, x5 := v.x0 &&& (v.x3 - 1#64) }
  have clearedW : Cleared dest len mem h w :=
    ⟨clearedV.x0, clearedV.x1, clearedV.x2, clearedV.memory, clearedV.touched⟩
  by_cases aligned : v.x0.toNat % z.block = 0
  · refine ⟨h, w, enter _ (.next rfl (.next rfl
      (reaches_cbz_taken ?_ (found_codeAt rfl) .refl))), clearedW, v0.trans zero, x3, aligned,
      .inr small⟩
    refine BitVec.eq_of_toNat_eq ?_
    show (v.x0 &&& (v.x3 - 1#64)).toNat = 0
    rw [x3, offset, aligned]
  · -- a block is at least sixteen bytes here, since the head has aligned to sixteen
    have sixteen : 16 ∣ z.block := by
      rcases z.block_cases with large | ⟨dvd, -⟩
      · exact large
      · refine absurd ?_ aligned
        exact Nat.mod_eq_zero_of_dvd (dvd.trans (Nat.dvd_of_mod_eq_zero aligned16))
    have inBlock : v.x0.toNat % z.block < z.block := Nat.mod_lt _ (by omega)
    have offset16 : v.x0.toNat % z.block % 16 = 0 := by
      rw [Nat.mod_mod_of_dvd _ sixteen, aligned16]
    let w' : State := { w with x4 := v.x3 - (v.x0 &&& (v.x3 - 1#64)) }
    have clearedW' : Cleared dest len mem h w' :=
      ⟨clearedV.x0, clearedV.x1, clearedV.x2, clearedV.memory, clearedV.touched⟩
    have count : w'.x4 = BitVec.ofNat 64 (z.block - v.x0.toNat % z.block) := by
      apply BitVec.eq_of_toNat_eq
      show (v.x3 - (v.x0 &&& (v.x3 - 1#64))).toNat = _
      have le : v.x0 &&& (BitVec.ofNat 64 z.block - 1#64) ≤ BitVec.ofNat 64 z.block := by
        rw [BitVec.le_def, toNat_block,
          show (v.x0 &&& (BitVec.ofNat 64 z.block - 1#64)).toNat = _ from offset]
        omega
      rw [x3, BitVec.toNat_sub_of_le le, toNat_block, offset, BitVec.toNat_ofNat]
      omega
    obtain ⟨y, blocks, clearedY, y0, y3⟩ := tier4Blk_clears clearedW' (v0.trans zero) count
      (by omega) (by omega)
    have end_ : y.x0 = v.x0 + BitVec.ofNat 64 (z.block - v.x0.toNat % z.block) := by
      rw [clearedY.x0, clearedV.x0, BitVec.add_assoc, BitVec.ofNat_add]
    refine ⟨_, y, enter _ (.next rfl (.next rfl (reaches_cbz_next ?_ (.next rfl (.label blocks))))),
      clearedY, y0, y3.trans x3, ?_, .inl ?_⟩
    · intro none
      have := congrArg BitVec.toNat (show v.x0 &&& (v.x3 - 1#64) = 0#64 from none)
      rw [x3, offset] at this
      exact aligned this
    · rw [end_, BitVec.toNat_add, BitVec.toNat_ofNat, Nat.mod_mod_of_dvd _ z.block_dvd,
        Nat.mod_eq_of_lt (show z.block - v.x0.toNat % z.block < 2 ^ 64 by omega), Nat.add_mod,
        ← Nat.add_mod, ← Nat.add_sub_assoc (Nat.le_of_lt inBlock)]
      have split := Nat.div_add_mod v.x0.toNat z.block
      rw [show v.x0.toNat + z.block - v.x0.toNat % z.block =
        z.block * (v.x0.toNat / z.block) + z.block by omega, ← Nat.mul_succ, Nat.mul_mod_right]
    · omega

/-! ## The whole routine -/

/-- The bytes up to the next block are more than the range has. -/
def Overshoots (z : Dczid) (dest len : BitVec 64) : Prop :=
  256 < len.toNat ∧ z.dzp = false ∧ len.toNat < (-dest).toNat % z.block

/-- The call returns the address it was given, and has stored zero to exactly the bytes
of the range. -/
def ZeroesExactly (z : Dczid) (s t : State) : Prop :=
  Returns z s t ∧ t.x0 = s.x0 ∧ t.memory = fill s.memory s.x0 s.x1.toNat 0 ∧
    ∀ a, t.Touched a ↔ a ∈ byteRange s.x0 s.x1.toNat

theorem Finishes.zeroes {lines : List (Line Label Instr)}
    (enter : (routine z).Reaches (codeAt .memzero, s) (lines, t))
    (finishes : Finishes z s.x0 s.x1 s.memory (lines, t)) : ∃ u, ZeroesExactly z s u := by
  obtain ⟨u, reaches, finished⟩ := finishes
  exact ⟨{ u with x0 := u.x2 }, ⟨_, enter.trans (reaches.trans (.next rfl .refl))⟩, finished.x2,
    finished.memory, finished.touched⟩

/-- The tiers behind the first one. -/
def vectorTiers : List (Line Label Instr) :=
  .instr (.cmp .x1 (.imm 64)) :: .instr (.bCond .hi .tier3) ::
    (align16Head .tier2 ++ (.label .t2Unroll :: codeAt .t2Unroll))

theorem cleared_entry (fresh : s.stores = []) :
    Cleared s.x0 s.x1 s.memory 0 { s with x2 := s.x0 } where
  x0 := by simp
  x1 := by simp
  x2 := rfl
  memory := by simp
  touched a := by simp [State.Touched, fresh]

/-- In the tiers above the first one `v0` is zero. -/
theorem tier4_finishes (within : ¬ Overshoots z dest len) (large : 256 < len.toNat)
    (cleared : Cleared dest len mem 0 s) (zero : s.v0 = 0) :
    Finishes z dest len mem (codeAt .tier4, s) := by
  have size := len.isLt
  cases allowed : z.dzp with
  | true =>
    have code : codeAt .tier4 = .instr (.mrsDczid .x3) :: .instr (.tbnz .x3 4 .tier4Stp) ::
        (codeAt .tier4).drop 2 := rfl
    have stp : codeAt .tier4Stp = align16Head .tier4Stp ++ (.instr (.b .tier3Loop) ::
        .label .tailQ :: codeAt .tailQ) := rfl
    let u : State := { s with x3 := z.value }
    have clearedU : Cleared dest len mem 0 u :=
      ⟨cleared.x0, cleared.x1, cleared.x2, cleared.memory, cleared.touched⟩
    obtain ⟨v, head, clearedV, v0, -⟩ := align16Head_clears .tier4Stp
      (.instr (.b .tier3Loop) :: .label .tailQ :: codeAt .tailQ) rfl rfl clearedU
    have prohibited : (routine z).exec (.tbnz .x3 4 .tier4Stp) u = some (.goto .tier4Stp u) := by
      show some (if z.value.getLsbD 4 = true then Goes.goto Label.tier4Stp u else Goes.next u) = _
      rw [getLsbD_value, allowed, if_pos rfl]
    rw [code]
    refine .of_reaches (.next rfl (.goto prohibited (found_codeAt rfl) .refl)) ?_
    rw [stp]
    exact .of_reaches (head.trans (reaches_branch (found_codeAt rfl) .refl))
      (tier3Loop_finishes clearedV (by omega) (v0.trans zero))
  | false =>
    obtain ⟨k, t, reaches, cleared', zero', size3, aligned, near⟩ :=
      tier4_aligns allowed cleared zero
    refine .of_reaches reaches (tier4Zva_finishes allowed cleared' ?_ zero' size3 aligned)
    rcases near with near | near
    · rw [cleared'.x0] at aligned
      rw [← distance_block z near aligned]
      exact Nat.le_of_not_lt fun more => within ⟨large, allowed, more⟩
    · omega

section Entry

variable (fresh : s.stores = [])
include fresh

/-- At least sixteen bytes go to the tiers that store vectors. -/
theorem reaches_vectorTiers (enough : 16 ≤ s.x1.toNat) :
    ∃ t, (routine z).Reaches (codeAt .memzero, s) (vectorTiers, t) ∧
      Cleared s.x0 s.x1 s.memory 0 t ∧ t.v0 = 0 := by
  have code : codeAt .memzero = .instr (.mov .x2 (.reg .x0)) :: .instr (.cbz .x1 .done) ::
      .instr (.cmp .x1 (.imm 16)) :: .instr (.bCond .lo .tailScalar) :: .instr .moviV0 ::
      vectorTiers := rfl
  have cleared := cleared_entry fresh
  rw [code]
  refine ⟨_, .next rfl (reaches_cbz_next (fun none => ?_) (reaches_lo_next ?_ (.next rfl .refl))),
    ⟨cleared.x0, cleared.x1, cleared.x2, cleared.memory, cleared.touched⟩, rfl⟩
  · have := congrArg BitVec.toNat (show s.x1 = 0#64 from none)
    simp only [BitVec.toNat_ofNat] at this
    omega
  · rw [toNat_imm 16 (by omega)]
    exact enough

theorem reaches_tier3 (enough : 64 < s.x1.toNat) :
    ∃ t, (routine z).Reaches (codeAt .memzero, s) (codeAt .tier3, t) ∧
      Cleared s.x0 s.x1 s.memory 0 t ∧ t.v0 = 0 := by
  obtain ⟨t, reaches, cleared, zero⟩ := reaches_vectorTiers (z := z) fresh (by omega)
  refine ⟨_, reaches.trans (reaches_hi_taken ?_ (found_codeAt rfl) .refl),
    cleared.compared .x1 (.imm 64), zero⟩
  have left := cleared.left (Nat.zero_le _)
  rw [toNat_imm 64 (by omega)]
  show 64 < t.x1.toNat
  omega

theorem reaches_tier4 (enough : 256 < s.x1.toNat) :
    ∃ t, (routine z).Reaches (codeAt .memzero, s) (codeAt .tier4, t) ∧
      Cleared s.x0 s.x1 s.memory 0 t ∧ t.v0 = 0 := by
  have code : codeAt .tier3 = .instr (.cmp .x1 (.imm 256)) :: .instr (.bCond .hi .tier4) ::
      (align16Head .tier3 ++ (.label .tier3Loop :: codeAt .tier3Loop)) := rfl
  obtain ⟨t, reaches, cleared, zero⟩ := reaches_tier3 (z := z) fresh (by omega)
  rw [code] at reaches
  refine ⟨_, reaches.trans (reaches_hi_taken ?_ (found_codeAt rfl) .refl),
    cleared.compared .x1 (.imm 256), zero⟩
  have left := cleared.left (Nat.zero_le _)
  rw [toNat_imm 256 (by omega)]
  show 256 < t.x1.toNat
  omega

theorem zeroes_of_not_overshoots (within : ¬ Overshoots z s.x0 s.x1) :
    ∃ t, ZeroesExactly z s t := by
  have size := s.x1.isLt
  rcases Nat.lt_or_ge s.x1.toNat 16 with few | enough
  · have code : codeAt .memzero = .instr (.mov .x2 (.reg .x0)) :: .instr (.cbz .x1 .done) ::
        .instr (.cmp .x1 (.imm 16)) :: .instr (.bCond .lo .tailScalar) :: .instr .moviV0 ::
        vectorTiers := rfl
    have cleared := cleared_entry fresh
    by_cases none : s.x1 = 0
    · have enter : (routine z).Reaches (codeAt .memzero, s) (codeAt .done,
        { s with x2 := s.x0 }) := by
        rw [code]
        exact .next rfl (reaches_cbz_taken none (found_codeAt rfl) .refl)
      exact Finishes.zeroes enter ⟨_, .refl, cleared.finished (by rw [none]; rfl)⟩
    · have enter : (routine z).Reaches (codeAt .memzero, s)
          (codeAt .tailScalar, State.compared { s with x2 := s.x0 } .x1 (.imm 16)) := by
        rw [code]
        refine .next rfl (reaches_cbz_next none (reaches_lo_taken ?_ (found_codeAt rfl) .refl))
        rw [toNat_imm 16 (by omega)]
        exact few
      exact Finishes.zeroes enter
        (tailScalar_finishes (cleared.compared .x1 (.imm 16)) (Nat.zero_le _) few)
  rcases (Nat.lt_or_ge 64 s.x1.toNat).symm with upTo64 | enough
  · obtain ⟨t, reaches, cleared, zero⟩ := reaches_vectorTiers (z := z) fresh enough
    have left := cleared.left (Nat.zero_le _)
    obtain ⟨v, head, clearedV, v0, -⟩ := align16Head_clears .tier2
      (.label .t2Unroll :: codeAt .t2Unroll) rfl rfl (cleared.compared .x1 (.imm 64))
    refine Finishes.zeroes (reaches.trans (reaches_hi_next ?_ (head.trans (.label .refl))))
      (t2Unroll_finishes clearedV (by omega) (by omega) (v0.trans zero))
    rw [toNat_imm 64 (by omega)]
    show t.x1.toNat ≤ 64
    omega
  rcases (Nat.lt_or_ge 256 s.x1.toNat).symm with upTo256 | enough
  · have code : codeAt .tier3 = .instr (.cmp .x1 (.imm 256)) :: .instr (.bCond .hi .tier4) ::
        (align16Head .tier3 ++ (.label .tier3Loop :: codeAt .tier3Loop)) := rfl
    obtain ⟨t, reaches, cleared, zero⟩ := reaches_tier3 (z := z) fresh enough
    have left := cleared.left (Nat.zero_le _)
    obtain ⟨v, head, clearedV, v0, -⟩ := align16Head_clears .tier3
      (.label .tier3Loop :: codeAt .tier3Loop) rfl rfl (cleared.compared .x1 (.imm 256))
    rw [code] at reaches
    refine Finishes.zeroes (reaches.trans (reaches_hi_next ?_ (head.trans (.label .refl))))
      (tier3Loop_finishes clearedV (by omega) (v0.trans zero))
    rw [toNat_imm 256 (by omega)]
    show t.x1.toNat ≤ 256
    omega
  · obtain ⟨t, reaches, cleared, zero⟩ := reaches_tier4 (z := z) fresh enough
    exact Finishes.zeroes reaches (tier4_finishes within enough cleared zero)

end Entry

theorem stores_set (s : State) (r : XReg) (v : BitVec 64) : (s.set r v).stores = s.stores := by
  cases r <;> rfl

/-- No instruction takes a store back. -/
theorem stores_exec (ran : exec z i s = some (.next t) ∨ ∃ l, exec z i s = some (.goto l t)) :
    ∃ more, t.stores = s.stores ++ more := by
  have branch : ∀ (taken : Bool) (l : Label), (some (if taken then Goes.goto l s else Goes.next s) =
      some (Goes.next t) ∨ ∃ l', some (if taken then Goes.goto l s else Goes.next s) =
      some (Goes.goto l' t)) → ∃ more, t.stores = s.stores ++ more := by
    intro taken l ran
    have same : t = s := by
      cases taken <;> simp at ran <;> exact ran.symm
    exact ⟨[], by rw [same, List.append_nil]⟩
  cases i with
  | cbz | tbnz | bCond | b => exact branch _ _ ran
  | ret => simp [exec] at ran
  | dcZva base =>
    simp only [exec] at ran
    split at ran
    · simp at ran
    · simp at ran
      exact ⟨_, by rw [← ran]; rfl⟩
  | strZr | strQ0 | stpQ0 =>
    simp [exec] at ran
    exact ⟨_, by rw [← ran, stores_set]; rfl⟩
  | moviV0 | cmp =>
    simp [exec] at ran
    exact ⟨[], by rw [← ran, List.append_nil]⟩
  | mov | and | add | sub | subs | lsl | mrsDczid =>
    simp [exec] at ran
    exact ⟨[], by rw [← ran, stores_set, List.append_nil]⟩

theorem touched_exec {a : BitVec 64} (touched : s.Touched a)
    (ran : exec z i s = some (.next t) ∨ ∃ l, exec z i s = some (.goto l t)) : t.Touched a := by
  obtain ⟨more, stores⟩ := stores_exec ran
  obtain ⟨access, inside, isByte⟩ := touched
  exact ⟨access, by rw [stores]; exact List.mem_append_left _ inside, isByte⟩

/-- The routine zeroes exactly the range it is given, unless the bytes up to the next block
are more than the range has. -/
theorem zeroesExactly_iff (z : Dczid) (s : State) (fresh : s.stores = []) :
    (∃ t, ZeroesExactly z s t) ↔ ¬ Overshoots z s.x0 s.x1 := by
  refine ⟨?_, zeroes_of_not_overshoots fresh⟩
  rintro ⟨t, ⟨rest, ends⟩, -, -, exact_⟩ ⟨large, allowed, more⟩
  obtain ⟨u, enter, cleared, zero⟩ := reaches_tier4 (z := z) fresh large
  obtain ⟨k, v, aligns, cleared', -, -, aligned, near⟩ := tier4_aligns allowed cleared zero
  have bounds := z.block_le
  have inBlock : (-s.x0).toNat % z.block < z.block := Nat.mod_lt _ (by omega)
  have less : k < z.block := by omega
  rw [cleared'.x0] at aligned
  have distance := distance_block z less aligned
  have beyond : v.Touched (s.x0 + BitVec.ofNat 64 s.x1.toNat) :=
    (cleared'.touched _).mpr ((add_mem_byteRange s.x1.isLt).mpr (by omega))
  have final : t.Touched (s.x0 + BitVec.ofNat 64 s.x1.toNat) :=
    ((enter.trans aligns).of_stopped ends rfl).invariant
      (fun _ _ _ touched ran => touched_exec touched ran) beyond
  exact Nat.lt_irrefl _ ((add_mem_byteRange s.x1.isLt).mp ((exact_ _).mp final))

end AnonCompiler.Mir.Memzero
