import AnonCompiler.Mir.ImmediateForms
import AnonCompiler.Mir.LowerSpec

/-!
# Integer selection is exact

For a binary instruction on `i32` that the walk over its block has reached, the selection
returns a register, everything it emits can be encoded, and the code leaves the value of the
instruction in that register.  There is one exception: the sum of a product with itself,
where the product is claimed for a `madd` whose addend is that same product.
-/

set_option autoImplicit false

namespace AnonCompiler.Mir

open Ir Lib LowerContext

section Exact

variable (P : Program) (F : FunctionData) (val : Inst → BitVec 32)

/-- The words the values of a function have when an instruction is executed: constants, and
binary operands computed from theirs. -/
structure Words (lhs rhs : Inst) : Prop where
  integer : ∀ x value, kindIn P F x = some (.integer value) → val x = value
  undef : ∀ x, kindIn P F x = some .undef → val x = 0
  computed : ∀ y ty op a b, y = lhs ∨ y = rhs → F.insts y = some ⟨ty, .binary op a b⟩ →
    P.typeOf F a = some .int32 → foldBinary op (val a) (val b) = some (val y)

/-- The operands of an instruction and what their producers read: all the selection looks at. -/
inductive Asked (lhs rhs : Inst) : Inst → Prop
  | operand {y : Inst} (isOperand : y = lhs ∨ y = rhs) : Asked lhs rhs y
  | inner {y x : Inst} {data : InstData} (isOperand : y = lhs ∨ y = rhs)
      (isData : F.insts y = some data) (used : x ∈ data.kind.instUsage) : Asked lhs rhs x

/-- A binary instruction on `i32` as the reverse walk over its block reaches it: neither the
instruction nor an operand has been lowered, and a producer was sunk only into a user that has
been lowered or sunk itself. -/
structure Site (c : LowerContext) (lowered : Inst → Prop) (inst : Inst) (op : BinaryOp)
    (lhs rhs : Inst) : Prop where
  wellFormed : F.WellFormed
  wellTyped : F.WellTyped P
  data : F.insts inst = some ⟨.int32, .binary op lhs rhs⟩
  lhsTy : P.typeOf F lhs = some .int32
  rhsTy : P.typeOf F rhs = some .int32
  /-- A word that is asked for is no float and no address, and is computed in the function. -/
  typed : ∀ x kind, Asked F lhs rhs x → P.instData F x = some ⟨.int32, kind⟩ →
    (∀ bits, kind ≠ .float bits) ∧ (∀ init, kind ≠ .globalAlloc init) ∧
      ∀ op' a b, kind = .binary op' a b → x.isGlobal = false
  current : c.curInst = some inst
  numbered : c.Numbered
  result : ∃ dst, c.regMap inst = some dst ∧ dst.isVirtual = true
  unlowered : ¬ lowered inst ∧ inst ∉ c.instSunk ∧ ¬ lowered lhs ∧ ¬ lowered rhs
  sunk : ∀ p ∈ c.instSunk, ∀ q data, F.insts q = some data → p ∈ data.kind.instUsage →
    q ∈ c.instSunk ∨ lowered q

variable {P F val} {c₀ c : LowerContext} {lowered : Inst → Prop} {inst lhs rhs : Inst}
  {op : BinaryOp}

namespace Site

variable (site : Site P F c lowered inst op lhs rhs)

include site

theorem operand (words : Words P F val lhs rhs) {x : Inst} (asked : Asked F lhs rhs x)
    (ty : P.typeOf F x = some .int32) : I32Operand P F val x := by
  obtain ⟨⟨ty', kind⟩, isData, isTy⟩ := Option.map_eq_some_iff.mp ty
  obtain rfl : ty' = .int32 := isTy
  obtain ⟨notFloat, notGlobal, -⟩ := site.typed x kind asked isData
  exact ⟨⟨kind, isData, notFloat, notGlobal⟩, words.integer x, words.undef x⟩

theorem operandTy {y : Inst} (isOperand : y = lhs ∨ y = rhs) : P.typeOf F y = some .int32 := by
  rcases isOperand with rfl | rfl
  · exact site.lhsTy
  · exact site.rhsTy

/-- An operand that is computed is a local value. -/
theorem insts {y a b : Inst} {op' : BinaryOp} (isOperand : y = lhs ∨ y = rhs)
    (isKind : kindIn P F y = some (.binary op' a b)) :
    F.insts y = some ⟨.int32, .binary op' a b⟩ := by
  obtain ⟨⟨ty', kind⟩, isData, isTy⟩ := Option.map_eq_some_iff.mp (site.operandTy isOperand)
  obtain rfl : ty' = .int32 := isTy
  rw [kindIn, isData] at isKind
  obtain rfl : kind = .binary op' a b := Option.some.inj isKind
  have isLocal := (site.typed y _ (.operand isOperand) isData).2.2 op' a b rfl
  rwa [Program.instData, if_neg (by rw [isLocal]; exact Bool.false_ne_true)] at isData

theorem operand_unsunk {y : Inst} (isOperand : y = lhs ∨ y = rhs) : y ∉ c.instSunk := by
  intro member
  have used : y ∈ (InstKind.binary op lhs rhs).instUsage := by
    rcases isOperand with rfl | rfl <;> simp [InstKind.instUsage]
  rcases site.sunk y member inst _ site.data used with sunk | early
  · exact site.unlowered.2.1 sunk
  · exact site.unlowered.1 early

theorem inner_unsunk {y x : Inst} {data : InstData} (isOperand : y = lhs ∨ y = rhs)
    (isData : F.insts y = some data) (used : x ∈ data.kind.instUsage) : x ∉ c.instSunk := by
  intro member
  rcases site.sunk x member y _ isData used with sunk | early
  · exact site.operand_unsunk isOperand sunk
  · rcases isOperand with rfl | rfl
    · exact site.unlowered.2.2.1 early
    · exact site.unlowered.2.2.2 early

end Site

variable {x : Inst} {value : BitVec 32}

/-- A producer that can be sunk does not read itself. -/
theorem canSink_reads {producer consumer root : Inst} {data : InstData} (wellFormed : F.WellFormed)
    (can : canSinkPureSingleUseProducer P F c producer consumer root = true)
    (isData : F.insts producer = some data) (used : x ∈ data.kind.instUsage) : x ≠ producer := by
  rintro rfl
  unfold canSinkPureSingleUseProducer at can
  split at can
  · cases can
  · split at can
    · cases can
    · next allowed =>
        have users := of_decide_eq_true can
        have self : x ∈ F.usedBy x := by
          refine List.mem_filter.mpr
            ⟨List.mem_range.mpr (wellFormed.inst_lt (by rw [isData]; simp)), ?_⟩
          rw [isData]
          exact decide_eq_true used
        rw [users, List.mem_singleton] at self
        exact allowed (.inl self)

/-! ## Single instructions -/

section Emit

variable {dst r r' r'' : Reg} {a b x word : BitVec 32} {known : List (Reg × BitVec 32)}

variable {alu : AluOp} {amount : Nat}

theorem selects_mov (isR : (r, word) ∈ known) : Selects P F val c₀ c
    (LowerContext.emit (.mov .size32 dst r) >>= fun _ => pure dst) known word :=
  .emit trivial fun s holds =>
    ⟨_, exec_mov s .size32 dst r, (Value.read_written _).trans (holds _ isR)⟩

theorem selects_movFromZero : Selects P F val c₀ c
    (LowerContext.emit (.movFromZero .size32 dst) >>= fun _ => pure dst) known 0 :=
  .emit trivial fun s _ => ⟨_, exec_movFromZero s .size32 dst, Value.read_written _⟩

theorem selects_aluRRR (alu : AluOp) (isR : (r, a) ∈ known) (isR' : (r', b) ∈ known) :
    Selects P F val c₀ c
      (LowerContext.emit (.aluRRR alu .size32 dst (.reg r) (.reg r')) >>= fun _ => pure dst) known
      (alu.eval a b) :=
  .emit trivial fun s holds => ⟨_, exec_aluRRR s .size32 dst alu (.reg r) (.reg r'), by
    rw [Value.read_written, RegOrZr.read, RegOrZr.read, holds _ isR, holds _ isR']⟩

theorem selects_aluZr (alu : AluOp) (isR : (r, b) ∈ known) : Selects P F val c₀ c
      (LowerContext.emit (.aluRRR alu .size32 dst .zr (.reg r)) >>= fun _ => pure dst) known
      (alu.eval 0 b) :=
  .emit trivial fun s holds => ⟨_, exec_aluRRR s .size32 dst alu .zr (.reg r), by
    rw [Value.read_written, RegOrZr.read, RegOrZr.read, holds _ isR]⟩

theorem selects_aluRRImm12 (imm : Imm12) (isAlu : alu = .add ∨ alu = .sub) (isR : (r, a) ∈ known) :
    Selects P F val c₀ c
      (LowerContext.emit (.aluRRImm12 alu .size32 dst r imm) >>= fun _ => pure dst) known
      (alu.eval a (imm.bits .size32)) :=
  .emit isAlu fun s holds => ⟨_, exec_aluRRImm12 s .size32 dst alu r imm, by
    rw [Value.read_written, holds _ isR]⟩

theorem selects_aluRRImmLogic {imm : ImmLogic} (isAlu : alu = .and ∨ alu = .orr ∨ alu = .eor)
    (size : imm.size = .size32) (isBitmask : IsBitmask imm.value .size32) (isR : (r, a) ∈ known) :
    Selects P F val c₀ c
      (LowerContext.emit (.aluRRImmLogic alu .size32 dst (.reg r) imm) >>= fun _ => pure dst) known
      (alu.eval a (imm.bits .size32)) :=
  .emit ⟨isAlu, size, isBitmask⟩ fun s holds =>
    ⟨_, exec_aluRRImmLogic s .size32 dst alu (.reg r) imm, by
      rw [Value.read_written, RegOrZr.read, holds _ isR]⟩

theorem selects_aluRRImmShift {shift : Nat} (isAlu : alu = .lsl ∨ alu = .lsr ∨ alu = .asr)
    (small : shift < 32) (isR : (r, a) ∈ known) :
    Selects P F val c₀ c
      (LowerContext.emit (.aluRRImmShift alu .size32 dst r shift) >>= fun _ => pure dst) known
      (alu.eval a (BitVec.ofNat 32 shift)) :=
  .emit ⟨isAlu, small⟩ fun s holds => ⟨_, exec_aluRRImmShift s .size32 dst alu r shift, by
    rw [Value.read_written, holds _ isR]⟩

theorem selects_aluRRRShift {shift : ShiftOp}
    (isAlu : (alu = .add ∨ alu = .sub) ∧ shift ≠ .ror ∨ alu = .and ∨ alu = .orr ∨ alu = .eor)
    (small : amount < 32) (isR : (r, a) ∈ known) (isR' : (r', b) ∈ known) : Selects P F val c₀ c
      (LowerContext.emit (.aluRRRShift alu .size32 dst (.reg r) r' shift amount) >>=
        fun _ => pure dst) known (alu.eval a (shift.eval b amount)) :=
  .emit ⟨isAlu, small⟩ fun s holds =>
    ⟨_, exec_aluRRRShift s .size32 dst alu (.reg r) r' shift amount, by
      rw [Value.read_written, RegOrZr.read, holds _ isR, holds _ isR']⟩

theorem selects_negShift (small : amount < 32) (isR : (r, b) ∈ known) :
    Selects P F val c₀ c
      (LowerContext.emit (.aluRRRShift .sub .size32 dst .zr r .lsl amount) >>= fun _ => pure dst)
        known
      (0 - b <<< amount) :=
  .emit ⟨.inl ⟨.inr rfl, by decide⟩, small⟩ fun s holds =>
    ⟨_, exec_aluRRRShift s .size32 dst .sub .zr r .lsl amount, by
      rw [Value.read_written, RegOrZr.read, holds _ isR]
      rfl⟩

section

variable (isL : (r, a) ∈ known) (isR : (r', b) ∈ known)
include isL isR

theorem selects_mAdd (isX : (r'', x) ∈ known) :
    Selects P F val c₀ c
      (LowerContext.emit (.mAdd .size32 dst r r' r'') >>= fun _ => pure dst) known (x + a * b) :=
  .emit trivial fun s holds => ⟨_, exec_mAdd s .size32 dst r r' r'', by
    rw [Value.read_written, holds _ isL, holds _ isR, holds _ isX]⟩

theorem selects_mSub (isX : (r'', x) ∈ known) :
    Selects P F val c₀ c
      (LowerContext.emit (.mSub .size32 dst r r' r'') >>= fun _ => pure dst) known (x - a * b) :=
  .emit trivial fun s holds => ⟨_, exec_mSub s .size32 dst r r' r'', by
    rw [Value.read_written, holds _ isL, holds _ isR, holds _ isX]⟩

theorem selects_sDiv : Selects P F val c₀ c
      (LowerContext.emit (.sDiv .size32 dst r r') >>= fun _ => pure dst) known (a.sdiv b) :=
  .emit trivial fun s holds => ⟨_, exec_sDiv s .size32 dst r r', by
    rw [Value.read_written, holds _ isL, holds _ isR]⟩

end

/-- A comparison and the set that reads its flags. -/
theorem selects_compare {i : ArithInst} {cond : Cond} (encodable : Encodable i)
    (compares : ∀ s : ArithState, (∀ k ∈ known, (s.regs k.1).read .size32 = k.2) →
      i.exec s = some { s with flags := .ofSub a b }) : Selects P F val c₀ c
      (LowerContext.emit i >>= fun _ => LowerContext.emit (.cSet cond dst) >>= fun _ => pure dst)
        known
      (truth (cond.holds (.ofSub a b))) := by
  refine ⟨dst, { c with irInst := c.irInst ++ [i] ++ [.cSet cond dst] }, [i, .cSet cond dst], rfl,
    .of_same le_rfl rfl rfl rfl rfl rfl, by simp, fun j member => ?_, fun s _ holds => ?_⟩
  · rcases List.mem_cons.mp member with rfl | member
    · exact encodable
    · rw [List.mem_singleton.mp member]
      trivial
  · refine ⟨_, @execCode_compare s .size32 dst i a b cond (compares s holds), ?_⟩
    rw [ArithState.set_self, read_truth]

end Emit

/-! ## Register forms -/

theorem integerConstant_eq_some :
    integerConstant P F x = some value ↔ kindIn P F x = some (.integer value) := by
  unfold integerConstant
  split
  · next found => simp [found]
  · next other =>
      constructor
      · intro isSome
        cases isSome
      · intro isInteger
        exact absurd isInteger (other value)

theorem Words.constant (words : Words P F val lhs rhs)
    (isConstant : integerConstant P F x = some value) : val x = value :=
  words.integer x value (integerConstant_eq_some.mp isConstant)

section Forms

variable {dst lhsReg : Reg} {known : List (Reg × BitVec 32)} {word : BitVec 32}
  (site : Site P F c₀ lowered inst op lhs rhs) (words : Words P F val lhs rhs)
  (here : Here c₀ c known)

include site words here

/-- An operand of the instruction, when nothing has been sunk yet. -/
theorem selects_rhs {f : Reg → LowerM Reg} (sunk : c.instSunk = c₀.instSunk)
    (next : ∀ r c₁, Here c₀ c₁ ((r, val rhs) :: known) →
      Selects P F val c₀ c₁ (f r) ((r, val rhs) :: known) word) :
    Selects P F val c₀ c (putValueInReg P F rhs >>= f) known word :=
  .put (site.operand words (.operand (.inr rfl)) site.rhsTy)
    (by rw [sunk]; exact site.operand_unsunk (.inr rfl)) here
    fun r c₁ here' _ => next r c₁ here'

/-- The operands of a shift by a constant. -/
theorem foldShiftedRhs_selects {f : Option (Reg × ShiftOp × Nat) → LowerM Reg}
    (sunk : c.instSunk = c₀.instSunk)
    (folded : ∀ r shift amount a c₁, shift ≠ ShiftOp.ror → amount < 32 →
      val rhs = shift.eval a amount → Here c₀ c₁ ((r, a) :: known) →
      Selects P F val c₀ c₁ (f (some (r, shift, amount))) ((r, a) :: known) word)
    (unfolded : Selects P F val c₀ c (f none) known word) :
    Selects P F val c₀ c (foldShiftedRhs P F inst rhs .size32 >>= f) known word := by
  unfold foldShiftedRhs
  split
  · next shiftKind a b isShift =>
      split
      · next shift amount isOp isAmount =>
          have isData := site.insts (.inr rfl) isShift
          obtain ⟨n, isN, isImm⟩ := Option.bind_eq_some_iff.mp isAmount
          obtain ⟨value, isValue, isU8⟩ := Option.bind_eq_some_iff.mp isN
          obtain ⟨small, rfl⟩ := ImmShift.new_eq_some.mp isImm
          obtain ⟨operandTy, lhsTy, rhsTy, isTy⟩ := site.wellTyped.binary isData
          have isI32 : P.typeOf F a = some .int32 := by
            rw [lhsTy]
            cases shiftKind <;> cases isOp <;> simpa [BinaryOp.isCompare] using isTy.symm
          have shifts := words.computed rhs _ _ a b (.inr rfl) isData isI32
          have isShifted : val rhs = shift.eval (val a) n := by
            rw [words.constant isValue] at shifts
            have below : value.toNat % 32 = n := by
              rw [toU8_eq_some isU8]
              exact Nat.mod_eq_of_lt small
            cases shiftKind <;> cases isOp <;>
              simp only [foldBinary, below, Option.some.injEq] at shifts <;> exact shifts.symm
          have notRor : shift ≠ .ror := by
            cases shiftKind <;> cases isOp <;> exact fun same => by cases same
          rw [bind_assoc]
          by_cases can : canSinkPureSingleUseProducer P F c rhs inst inst = true
          · refine .step ((sinkPureSingleUseProducer_eq c rhs inst).trans (if_pos can))
              (c.grows_sink rhs) rfl ?_
            simp only [↓reduceIte, bind_assoc, pure_bind]
            have used : a ∈ (InstKind.binary shiftKind a b).instUsage := by
              simp [InstKind.instUsage]
            refine .put (site.operand words (.inner (.inr rfl) isData used) isI32) ?_
              (here.sink rhs) fun r c₁ here' _ =>
                folded r shift n (val a) c₁ notRor small isShifted here'
            have apart := canSink_reads site.wellFormed can isData used
            show a ∉ rhs :: c.instSunk
            rw [List.mem_cons, not_or, sunk]
            exact ⟨apart, site.inner_unsunk (.inr rfl) isData used⟩
          · refine .step ((sinkPureSingleUseProducer_eq c rhs inst).trans (if_neg can))
              (.refl c) rfl ?_
            simp only [Bool.false_eq_true, ↓reduceIte, pure_bind]
            exact unfolded
      · exact unfolded
  · exact unfolded

omit site words here in
/-- The opcodes of the sums, differences and logical operations. -/
theorem aluOp_shifts {alu : AluOp}
    (isOp : op = .add ∨ op = .sub ∨ op = .and ∨ op = .or ∨ op = .xor)
    (isAlu : aluOp op = some alu) :
    (alu = .add ∨ alu = .sub ∨ alu = .and ∨ alu = .orr ∨ alu = .eor) ∧
      ∀ a b : BitVec 32, foldBinary op a b = some (alu.eval a b) := by
  rcases isOp with rfl | rfl | rfl | rfl | rfl <;> cases isAlu <;> exact ⟨by decide, fun _ _ => rfl⟩

section

variable (sunk : c.instSunk = c₀.instSunk)
include sunk

theorem lowerRegisterForm_selects (isOp : op = .add ∨ op = .sub ∨ op = .and ∨ op = .or ∨ op = .xor)
    (isLhs : (lhsReg, val lhs) ∈ known) (value : foldBinary op (val lhs) (val rhs) = some word) :
    Selects P F val c₀ c
      (lowerRegisterForm P F inst op rhs .size32 dst lhsReg >>= fun _ => pure dst) known word := by
  obtain ⟨alu, isAlu⟩ : ∃ alu, aluOp op = some alu := by
    rcases isOp with rfl | rfl | rfl | rfl | rfl <;> exact ⟨_, rfl⟩
  obtain ⟨isKind, computes⟩ := aluOp_shifts isOp isAlu
  obtain rfl : alu.eval (val lhs) (val rhs) = word :=
    Option.some.inj ((computes _ _).symm.trans value)
  unfold lowerRegisterForm
  rw [bind_assoc]
  have isSome : (expect (aluOp op) : LowerM AluOp) c = some (alu, c) := by
    rw [isAlu]
    rfl
  refine .step isSome (.refl c) rfl ?_
  rw [bind_assoc]
  refine foldShiftedRhs_selects site words here sunk
    (fun r shift amount a c₁ notRor small isRhs _ => ?_) ?_
  · rw [isRhs]
    refine selects_aluRRRShift ?_ small (List.mem_cons_of_mem _ isLhs) List.mem_cons_self
    rcases isKind with rfl | rfl | isLogic
    · exact .inl ⟨.inl rfl, notRor⟩
    · exact .inl ⟨.inr rfl, notRor⟩
    · exact .inr isLogic
  · dsimp only
    rw [bind_assoc]
    exact selects_rhs site words here sunk fun r c₁ _ =>
      selects_aluRRR alu (List.mem_cons_of_mem _ isLhs) List.mem_cons_self

/-- What an immediate or a shifted operand does not cover. -/
theorem lowerAddSub_selects (isOp : op = .add ∨ op = .sub) (isLhs : (lhsReg, val lhs) ∈ known)
    (value : foldBinary op (val lhs) (val rhs) = some word) :
    Selects P F val c₀ c
      (lowerAddSub P F inst op lhs rhs .size32 dst lhsReg >>= fun _ => pure dst) known word := by
  unfold lowerAddSub
  dsimp only
  split
  · next zero =>
      obtain ⟨rfl, isZero⟩ := zero
      rw [bind_assoc]
      rw [words.constant isZero] at value
      have same : word = val rhs := by simpa [foldBinary] using value.symm
      rw [same]
      exact selects_rhs site words here sunk fun r c₁ _ => selects_mov List.mem_cons_self
  · split
    · next zero =>
        rw [words.constant zero] at value
        have same : word = val lhs := by
          rcases isOp with rfl | rfl <;> simpa [foldBinary] using value.symm
        rw [same]
        exact selects_mov isLhs
    · split
      · next zero =>
          obtain ⟨rfl, isZero⟩ := zero
          rw [bind_assoc]
          rw [words.constant isZero] at value
          obtain rfl : 0 - val rhs = word := Option.some.inj value
          exact selects_rhs site words here sunk fun r c₁ _ => selects_aluZr .sub List.mem_cons_self
      · split
        · next alu imm isImm =>
            obtain ⟨constant, isConstant⟩ : ∃ constant,
              integerConstant P F rhs = some constant := by
              cases found : integerConstant P F rhs with
              | none => rw [found] at isImm; cases isImm
              | some constant => exact ⟨constant, rfl⟩
            rw [isConstant] at isImm
            obtain ⟨isAlu, computes⟩ := addSubImmediate_eval isImm (val lhs)
            rw [words.constant isConstant, computes] at value
            cases value
            exact selects_aluRRImm12 imm isAlu isLhs
        · exact lowerRegisterForm_selects site words here sunk (isOp.imp_right .inl) isLhs value

theorem lowerLogic_selects (isOp : op = .and ∨ op = .or ∨ op = .xor)
    (isLhs : (lhsReg, val lhs) ∈ known) (value : foldBinary op (val lhs) (val rhs) = some word) :
    Selects P F val c₀ c
      (lowerLogic P F inst op lhs rhs .size32 dst lhsReg >>= fun _ => pure dst) known word := by
  unfold lowerLogic
  dsimp only
  split
  · next zero =>
      obtain ⟨rfl, isZero⟩ := zero
      have same : word = 0 := by
        rcases isZero with isZero | isZero
        · rw [words.constant isZero] at value
          simpa [foldBinary] using value.symm
        · rw [words.constant isZero] at value
          simpa [foldBinary] using value.symm
      rw [same]
      exact selects_movFromZero
  · split
    · next zero =>
        obtain ⟨notAnd, isZero⟩ := zero
        rw [bind_assoc]
        rw [words.constant isZero] at value
        have same : word = val rhs := by
          rcases notAnd with rfl | rfl <;> simpa [foldBinary] using value.symm
        rw [same]
        exact selects_rhs site words here sunk fun r c₁ _ => selects_mov List.mem_cons_self
    · split
      · next zero =>
          obtain ⟨notAnd, isZero⟩ := zero
          rw [words.constant isZero] at value
          have same : word = val lhs := by
            rcases notAnd with rfl | rfl <;> simpa [foldBinary] using value.symm
          rw [same]
          exact selects_mov isLhs
      · split
        · next imm isImm =>
            obtain ⟨constant, isConstant, made⟩ := Option.bind_eq_some_iff.mp isImm
            obtain ⟨size, isBitmask, bits⟩ := immLogic_bits made
            obtain ⟨alu, isAlu⟩ : ∃ alu, aluOp op = some alu := by
              rcases isOp with rfl | rfl | rfl <;> exact ⟨_, rfl⟩
            have isKind : alu = .and ∨ alu = .orr ∨ alu = .eor := by
              rcases isOp with rfl | rfl | rfl <;> cases isAlu <;> decide
            obtain ⟨-, computes⟩ := aluOp_shifts (.inr (.inr isOp)) isAlu
            rw [computes, words.constant isConstant, ← bits] at value
            cases value
            rw [bind_assoc]
            have isSome : (expect (aluOp op) : LowerM AluOp) c = some (alu, c) := by
              rw [isAlu]
              rfl
            exact .step isSome (.refl c) rfl (selects_aluRRImmLogic isKind size isBitmask isLhs)
        · exact lowerRegisterForm_selects site words here sunk (.inr (.inr isOp)) isLhs value

theorem lowerShift_selects (isOp : op = .shl ∨ op = .shr ∨ op = .sar)
    (isLhs : (lhsReg, val lhs) ∈ known) (value : foldBinary op (val lhs) (val rhs) = some word) :
    Selects P F val c₀ c
      (lowerShift P F op rhs .size32 dst lhsReg >>= fun _ => pure dst) known word := by
  obtain ⟨alu, isAlu⟩ : ∃ alu, aluOp op = some alu := by
    rcases isOp with rfl | rfl | rfl <;> exact ⟨_, rfl⟩
  have isKind : alu = .lsl ∨ alu = .lsr ∨ alu = .asr := by
    rcases isOp with rfl | rfl | rfl <;> cases isAlu <;> decide
  have computes : foldBinary op (val lhs) (val rhs) = some (alu.eval (val lhs) (val rhs)) := by
    rcases isOp with rfl | rfl | rfl <;> cases isAlu <;> rfl
  rw [computes] at value
  cases value
  unfold lowerShift
  rw [bind_assoc]
  have isSome : (expect (aluOp op) : LowerM AluOp) c = some (alu, c) := by
    rw [isAlu]
    rfl
  refine .step isSome (.refl c) rfl ?_
  split
  · next shift isShift =>
      obtain ⟨n, isN, isImm⟩ := Option.bind_eq_some_iff.mp isShift
      obtain ⟨constant, isConstant, isU8⟩ := Option.bind_eq_some_iff.mp isN
      obtain ⟨small, rfl⟩ := ImmShift.new_eq_some.mp isImm
      have same : val rhs = BitVec.ofNat 32 n := by
        rw [words.constant isConstant, ← toU8_eq_some isU8, BitVec.ofNat_toNat, BitVec.setWidth_eq]
      rw [same]
      exact selects_aluRRImmShift isKind small isLhs
  · rw [bind_assoc]
    exact selects_rhs site words here sunk fun r c₁ _ =>
      selects_aluRRR alu (List.mem_cons_of_mem _ isLhs) List.mem_cons_self

theorem lowerCompare_selects (isCompare : op.isCompare = true) (isLhs : (lhsReg, val lhs) ∈ known)
    (value : foldBinary op (val lhs) (val rhs) = some word) :
    Selects P F val c₀ c
      (lowerCompare P F op rhs .size32 dst lhsReg >>= fun _ => pure dst) known word := by
  obtain ⟨cond, isCond⟩ : ∃ cond, comparisonCond op = some cond := by
    cases op <;> first | exact ⟨_, rfl⟩ | cases isCompare
  rw [comparisonCond_holds isCond] at value
  cases value
  unfold lowerCompare
  rw [isCond]
  split
  · next imm isImm =>
      obtain ⟨constant, isConstant, made⟩ := Option.bind_eq_some_iff.mp isImm
      rw [words.constant isConstant, ← positiveImm12_bits made]
      refine selects_compare trivial fun s holds => ?_
      rw [exec_cmpImm, holds _ isLhs]
  · simp only [bind_assoc]
    refine selects_rhs site words here sunk fun r c₁ _ => ?_
    refine selects_compare trivial fun s holds => ?_
    rw [exec_cmpRR, RegOrZr.read, holds _ (List.mem_cons_of_mem _ isLhs),
      holds _ List.mem_cons_self]

end

end Forms

/-! ## Division by a constant -/

section Division

variable {dst lhsReg : Reg} {known : List (Reg × BitVec 32)} {a divisor word : BitVec 32}
  {f : Bool → LowerM Reg}

theorem Here.apart (here : Here c₀ c known) (isKnown : (lhsReg, a) ∈ known) {r : Reg}
    (new : c.nextVreg ≤ r.vreg) : lhsReg ≠ r := by
  rintro rfl
  exact absurd (here.allBelow _ isKnown) (Nat.not_lt.mpr new)

/-- The quotient by a power of two in three instructions. -/
def powerQuotientCode (lhs sign biased quotient : Reg) (k : Nat) : List ArithInst :=
  [.aluRRImmShift .asr .size32 sign lhs 31,
    .aluRRRShift .add .size32 biased (.reg lhs) sign .lsr (32 - k),
    .aluRRImmShift .asr .size32 quotient biased k]

theorem powerQuotientCode_encodable {lhs sign biased quotient : Reg} {k : Nat} (pos : 1 ≤ k)
    (small : k ≤ 31) : ∀ i ∈ powerQuotientCode lhs sign biased quotient k, Encodable i := by
  intro i member
  simp only [powerQuotientCode, List.mem_cons, List.not_mem_nil, or_false] at member
  rcases member with rfl | rfl | rfl
  · exact ⟨.inr (.inr rfl), by decide⟩
  · exact ⟨.inl ⟨.inl rfl, by decide⟩, show 32 - k < 32 by omega⟩
  · exact ⟨.inr (.inr rfl), show k < 32 by omega⟩

theorem execCode_powerQuotient (s : ArithState) {lhs sign biased quotient : Reg} {k : Nat}
    (small : k ≤ 31) (holds : (s.regs lhs).read .size32 = a) (apart : lhs ≠ sign) :
    ∃ w₁ w₂ w₃, execCode s (powerQuotientCode lhs sign biased quotient k) =
        some (((s.set sign w₁).set biased w₂).set quotient w₃) ∧
      w₃.read .size32 = (a + (a.sshiftRight 31) >>> (32 - k)).sshiftRight k := by
  rw [powerQuotientCode, execCode_cons, exec_aluRRImmShift, Option.bind_some, execCode_cons,
    exec_aluRRRShift, Option.bind_some, execCode_cons, exec_aluRRImmShift, Option.bind_some]
  refine ⟨_, _, _, rfl, ?_⟩
  rw [Value.read_written, ArithState.set_self, Value.read_written, RegOrZr.read,
    ArithState.set_self, Value.read_written, ArithState.set_of_ne _ apart, holds,
    @eval_asr .size32 31 (by decide), @eval_asr .size32 k (show k < 32 by omega)]
  rfl

theorem lowerSignedDivRemPowerOfTwo_selects {k : Nat} {negative : Bool} (here : Here c₀ c known)
    (isPower : signedPowerOfTwo divisor = some (k, negative)) (isOp : op = .div ∨ op = .rem)
    (isLhs : (lhsReg, a) ∈ known) (value : foldBinary op a divisor = some word)
    (done : f true = pure dst) :
    Selects P F val c₀ c (lowerSignedDivRemPowerOfTwo op dst lhsReg divisor >>= f) known word := by
  obtain ⟨small, isInt⟩ := signedPowerOfTwo_spec isPower
  have nonzero : divisor ≠ 0 := by
    rintro rfl
    cases isPower
  cases k with
  | zero =>
    have one : divisor.toInt = if negative then -1 else 1 := by simpa using isInt
    have quotient : a.sdiv divisor = if negative then 0 - a else a := by
      rw [Word.sdiv_eq_ofInt, one]
      cases negative
      · simp
      · simp [BitVec.ofInt_neg]
    have remainder : a.srem divisor = 0 := by
      rw [Word.srem_eq_ofInt, one]
      cases negative <;> simp
    unfold lowerSignedDivRemPowerOfTwo
    rw [isPower]
    rcases isOp with rfl | rfl
    · rw [foldBinary, if_neg nonzero, quotient] at value
      cases negative <;> cases value <;> simp only [bind_assoc, pure_bind, done]
      · exact selects_mov isLhs
      · exact selects_aluZr .sub isLhs
    · rw [foldBinary, if_neg nonzero, remainder] at value
      cases negative <;> cases value <;> simp only [bind_assoc, pure_bind, done]
      · exact selects_movFromZero
      · exact selects_movFromZero
  | succ k =>
    have pos : 1 ≤ k + 1 := Nat.succ_le_succ (Nat.zero_le k)
    have biasShift : ImmShift.new (32 - (k + 1)) .size32 = some (32 - (k + 1)) :=
      ImmShift.new_eq_some.mpr ⟨show 32 - (k + 1) < 32 by omega, rfl⟩
    have lastShift : ImmShift.new (k + 1) .size32 = some (k + 1) :=
      ImmShift.new_eq_some.mpr ⟨show k + 1 < 32 by omega, rfl⟩
    have apart (i : Nat) : lhsReg ≠ ⟨c.nextVreg + i, .int⟩ :=
      here.apart isLhs (Nat.le_add_right ..)
    have quotientEncodable {quotient : Reg} :=
      @powerQuotientCode_encodable lhsReg ⟨c.nextVreg, .int⟩
      ⟨c.nextVreg + 1, .int⟩ quotient (k + 1) pos small
    rcases isOp with rfl | rfl
    · rw [foldBinary, if_neg nonzero] at value
      cases value
      cases negative with
      | false =>
        rw [Word.sdiv_power pos small (by simpa using isInt)]
        refine .ofCode 2 (powerQuotientCode lhsReg ⟨c.nextVreg, .int⟩
          ⟨c.nextVreg + 1, .int⟩ dst (k + 1)) ?_ done quotientEncodable fun s holds => ?_
        · unfold lowerSignedDivRemPowerOfTwo
          rw [isPower]
          simp only [biasShift, lastShift]
          refine Eq.trans (b := some (true, _)) rfl ?_
          simp [LowerContext.emitted, powerQuotientCode]
        · obtain ⟨w₁, w₂, w₃, run, isQuotient⟩ := execCode_powerQuotient s small (holds _ isLhs)
            (apart 0)
          exact ⟨_, run, by rw [ArithState.set_self, isQuotient]⟩
      | true =>
        rw [Word.sdiv_negPower pos small (by simpa using isInt)]
        refine .ofCode 3 (powerQuotientCode lhsReg ⟨c.nextVreg, .int⟩
          ⟨c.nextVreg + 1, .int⟩ ⟨c.nextVreg + 2, .int⟩ (k + 1) ++
            [.aluRRR .sub .size32 dst .zr (.reg ⟨c.nextVreg + 2, .int⟩)]) ?_ done ?_ fun s
              holds => ?_
        · unfold lowerSignedDivRemPowerOfTwo
          rw [isPower]
          simp only [biasShift, lastShift]
          refine Eq.trans (b := some (true, _)) rfl ?_
          simp [LowerContext.emitted, powerQuotientCode]
        · intro i member
          rcases List.mem_append.mp member with first | last
          · exact quotientEncodable i first
          · rw [List.mem_singleton.mp last]
            trivial
        · obtain ⟨w₁, w₂, w₃, run, isQuotient⟩ := execCode_powerQuotient s small (holds _ isLhs)
            (apart 0)
          refine ⟨_, (execCode_append _ run).trans (by
            rw [execCode_cons, exec_aluRRR]
            rfl), ?_⟩
          rw [ArithState.set_self, Value.read_written, RegOrZr.read, RegOrZr.read,
            ArithState.set_self, isQuotient]
          exact BitVec.zero_sub _
    · rw [foldBinary, if_neg nonzero] at value
      cases value
      have isAbs : divisor.toInt.natAbs = 2 ^ (k + 1) := by
        have cast : ((2 ^ (k + 1) : Nat) : Int) = 2 ^ (k + 1) := by push_cast; rfl
        have positive : 0 < 2 ^ (k + 1) := Nat.two_pow_pos _
        rw [← cast] at isInt
        generalize 2 ^ (k + 1) = power at *
        split at isInt <;> omega
      rw [Word.srem_power pos small isAbs]
      refine .ofCode 3 (powerQuotientCode lhsReg ⟨c.nextVreg, .int⟩
        ⟨c.nextVreg + 1, .int⟩ ⟨c.nextVreg + 2, .int⟩ (k + 1) ++
          [.aluRRRShift .sub .size32 dst (.reg lhsReg) ⟨c.nextVreg + 2, .int⟩ .lsl (k + 1)]) ?_
            done ?_ fun s holds => ?_
      · unfold lowerSignedDivRemPowerOfTwo
        rw [isPower]
        simp only [biasShift, lastShift]
        refine Eq.trans (b := some (true, _)) (by cases negative <;> rfl) ?_
        simp [LowerContext.emitted, powerQuotientCode]
      · intro i member
        rcases List.mem_append.mp member with first | last
        · exact quotientEncodable i first
        · rw [List.mem_singleton.mp last]
          exact ⟨.inl ⟨.inr rfl, by decide⟩, show k + 1 < 32 by omega⟩
      · obtain ⟨w₁, w₂, w₃, run, isQuotient⟩ := execCode_powerQuotient s small (holds _ isLhs)
          (apart 0)
        refine ⟨_, (execCode_append _ run).trans (by
          rw [execCode_cons, exec_aluRRRShift]
          rfl), ?_⟩
        rw [ArithState.set_self, Value.read_written, RegOrZr.read, ArithState.set_self, isQuotient,
          ArithState.set_of_ne _ (apart 2), ArithState.set_of_ne _ (apart 1),
          ArithState.set_of_ne _ (apart 0), holds _ isLhs]
        rfl

theorem magicConst_spec (here : Here c₀ c known) (value : BitVec 32) :
    ∃ r c₁, magicConst value divisor c = some (r, c₁) ∧ Fetches P F val c₀ c c₁ r value := by
  obtain ⟨shared, c₁, run, spec⟩ : ∃ shared c₁,
      sharedConst value.toNat divisor.toNat c = some (shared, c₁) ∧
        SharesConst P F val c₀ c c₁ value.toNat shared := sharedConst_spec _ _
  have word : BitVec.ofInt 32 value.toNat = value := by
    rw [BitVec.ofInt_natCast, BitVec.ofNat_toNat, BitVec.setWidth_eq]
  let load : LowerM Reg := do
    let reg ← allocTmp .int32
    LowerContext.emit (.loadImm .size32 reg (value.setWidth 64))
    pure reg
  have first : magicConst value divisor c = (shared.elim load pure) c₁ := by
    unfold magicConst
    show (sharedConst value.toNat divisor.toNat c).bind _ = _
    rw [run]
    cases shared <;> rfl
  rw [first]
  cases shared with
  | some r =>
    obtain ⟨held, holds⟩ := spec.reg r rfl
    rw [word] at holds
    exact ⟨r, c₁, rfl, .still spec.grows spec.sunk here.numbered held spec.same holds⟩
  | none =>
    have fetches : Fetches P F val c₀ c₁ (c₁.loaded (value.setWidth 64)) ⟨c₁.nextVreg, .int⟩
        ((value.setWidth 64).setWidth 32) := fetches_loaded (spec.grows.numbered here.numbered) _
    rw [BitVec.setWidth_setWidth_of_le value (by decide), BitVec.setWidth_eq] at fetches
    exact ⟨_, _, rfl, .after spec.grows spec.sunk spec.same fetches⟩

/-- The low half of what a 64-bit form leaves. -/
theorem read_written64 (v : BitVec 64) :
    Value.read .size32 (@Value.written .size64 v) = v.setWidth 32 := by
  show (v.setWidth 128).setWidth 32 = v.setWidth 32
  exact BitVec.setWidth_setWidth_of_le v (by decide)

/-- The product and the shifts of a magic number. -/
def magicCode (magic : SignedMagic) (lhs multiplier : Reg) (n : Nat) : List ArithInst :=
  .sMulL ⟨n, .int⟩ lhs multiplier ::
    if magic.correction = .none then
      [.aluRRImmShift .asr .size64 ⟨n + 1, .int⟩ ⟨n, .int⟩ (32 + magic.shift)]
    else
      [.aluRRImmShift .asr .size64 ⟨n + 2, .int⟩ ⟨n, .int⟩ 32,
        .aluRRR (if magic.correction = .addNumerator then .add else .sub) .size32
          ⟨if magic.shift = 0 then n + 1 else n + 3, .int⟩ (.reg ⟨n + 2, .int⟩) (.reg lhs)] ++
      if magic.shift = 0 then []
      else [.aluRRImmShift .asr .size32 ⟨n + 1, .int⟩ ⟨n + 3, .int⟩ magic.shift]

/-- How many registers the code writes. -/
def magicRegs (magic : SignedMagic) : Nat :=
  if magic.correction = .none then 2 else if magic.shift = 0 then 3 else 4

section

variable (magic : SignedMagic) (small : magic.shift ≤ 31)
include small

theorem magicCode_encodable (lhs multiplier : Reg) (n : Nat) :
    ∀ i ∈ magicCode magic lhs multiplier n, Encodable i := by
  have isAsr : AluOp.asr = .lsl ∨ AluOp.asr = .lsr ∨ AluOp.asr = .asr := .inr (.inr rfl)
  have wide : 32 + magic.shift < 64 := by omega
  have narrow : magic.shift < 32 := by omega
  intro i member
  unfold magicCode at member
  rcases List.mem_cons.mp member with rfl | member
  · trivial
  · split at member
    · rw [List.mem_singleton.mp member]
      exact ⟨isAsr, wide⟩
    · rcases List.mem_append.mp member with first | last
      · rcases List.mem_cons.mp first with rfl | second
        · exact ⟨isAsr, by decide⟩
        · rw [List.mem_singleton.mp second]
          trivial
      · split at last
        · cases last
        · rw [List.mem_singleton.mp last]
          exact ⟨isAsr, narrow⟩

theorem execCode_magic {lhs multiplier : Reg} {n : Nat} (s : ArithState)
    (isLhs : (s.regs lhs).read .size32 = a)
    (isMultiplier : (s.regs multiplier).read .size32 = magic.multiplier) (below : lhs.vreg < n) :
    ∃ s', execCode s (magicCode magic lhs multiplier n) = some s' ∧
      (s'.regs ⟨n + 1, .int⟩).read .size32 = (magic.corrected a).sshiftRight magic.shift ∧
      ∀ q, q.vreg < n ∨ n + magicRegs magic ≤ q.vreg → s'.regs q = s.regs q := by
  have apart (i : Nat) : lhs ≠ ⟨n + i, .int⟩ := by
    rintro rfl
    exact absurd below (Nat.not_lt.mpr (Nat.le_add_right n i))
  have other (i : Nat) (within : i < magicRegs magic) (q : Reg)
      (outside : q.vreg < n ∨ n + magicRegs magic ≤ q.vreg) : q ≠ ⟨n + i, .int⟩ := by
    rintro rfl
    dsimp only at outside
    omega
  have some' : 0 < magicRegs magic := by
    unfold magicRegs
    split
    · decide
    · split <;> decide
  have apartFirst : lhs ≠ ⟨n, .int⟩ := apart 0
  have otherFirst (q : Reg) (outside : q.vreg < n ∨ n + magicRegs magic ≤ q.vreg) :
      q ≠ ⟨n, .int⟩ := other 0 some' q outside
  have high : ((a.signExtend 64 * magic.multiplier.signExtend 64 : BitVec 64).sshiftRight
    32).setWidth 32 =
      BitVec.ofInt 32 (a.toInt * magic.multiplier.toInt / 2 ^ 32) := by
    rw [setWidth_sshiftRight, toInt_product]
  unfold magicCode
  rw [execCode_cons, exec_sMulL, Option.bind_some, isLhs, isMultiplier]
  by_cases plain : magic.correction = .none
  · have two : magicRegs magic = 2 := if_pos plain
    rw [if_pos plain, execCode_cons, exec_aluRRImmShift, Option.bind_some]
    refine ⟨_, rfl, ?_, fun q outside => ?_⟩
    · rw [ArithState.set_self, read_written64, ArithState.set_self, Value.read_written,
        @eval_asr .size64 (32 + magic.shift) (show 32 + magic.shift < 64 by omega),
        setWidth_sshiftRight, toInt_product, shift_high, SignedMagic.corrected, plain]
    · rw [ArithState.set_of_ne _ (other 1 (by omega) q outside),
        ArithState.set_of_ne _ (otherFirst q outside)]
  · have corrected : (if magic.correction = .addNumerator then AluOp.add else AluOp.sub).eval
        (BitVec.ofInt 32 (a.toInt * magic.multiplier.toInt / 2 ^ 32)) a = magic.corrected a := by
      rw [SignedMagic.corrected]
      cases isCorrection : magic.correction with
      | none => exact absurd isCorrection plain
      | addNumerator => rfl
      | subNumerator => rfl
    have step (s : ArithState) (dst : Reg) (isLhs : (s.regs lhs).read .size32 = a)
        (isHigh : (s.regs ⟨n + 2, .int⟩).read .size32 =
          BitVec.ofInt 32 (a.toInt * magic.multiplier.toInt / 2 ^ 32)) :
        ArithInst.exec
          (.aluRRR (if magic.correction = .addNumerator then .add else .sub) .size32 dst
          (.reg ⟨n + 2, .int⟩) (.reg lhs)) s =
            some (s.set dst (@Value.written .size32 (magic.corrected a))) := by
      rw [exec_aluRRR, RegOrZr.read, RegOrZr.read, isLhs, isHigh, corrected]
    rw [if_neg plain, List.cons_append, execCode_cons, exec_aluRRImmShift, Option.bind_some,
      List.cons_append, execCode_cons, step]
    rotate_left
    · rw [ArithState.set_of_ne _ (apart 2), ArithState.set_of_ne _ apartFirst, isLhs]
    · rw [ArithState.set_self, read_written64, ArithState.set_self, Value.read_written,
        @eval_asr .size64 32 (by decide), high]
    rw [Option.bind_some, List.nil_append]
    by_cases still : magic.shift = 0
    · have three : magicRegs magic = 3 := by rw [magicRegs, if_neg plain, if_pos still]
      simp only [if_pos still]
      refine ⟨_, rfl, ?_, fun q outside => ?_⟩
      · rw [ArithState.set_self, Value.read_written, still]
        exact (BitVec.sshiftRight_zero).symm
      · rw [ArithState.set_of_ne _ (other 1 (by omega) q outside),
          ArithState.set_of_ne _ (other 2 (by omega) q outside),
          ArithState.set_of_ne _ (otherFirst q outside)]
    · have four : magicRegs magic = 4 := by rw [magicRegs, if_neg plain, if_neg still]
      simp only [if_neg still]
      rw [execCode_cons, exec_aluRRImmShift, Option.bind_some]
      refine ⟨_, rfl, ?_, fun q outside => ?_⟩
      · rw [ArithState.set_self, Value.read_written, ArithState.set_self, Value.read_written,
          @eval_asr .size32 magic.shift (show magic.shift < 32 by omega)]
      · rw [ArithState.set_of_ne _ (other 1 (by omega) q outside),
          ArithState.set_of_ne _ (other 3 (by omega) q outside),
          ArithState.set_of_ne _ (other 2 (by omega) q outside),
          ArithState.set_of_ne _ (otherFirst q outside)]

theorem magicShifted_run (lhs multiplier : Reg) :
    magicShifted magic lhs multiplier c =
      some (⟨c.nextVreg + 1, .int⟩,
        c.emitted (magicRegs magic) (magicCode magic lhs multiplier c.nextVreg)) := by
  obtain ⟨m, k, correction⟩ := magic
  dsimp only at small
  have wide : ImmShift.new (32 + k) .size64 = some (32 + k) :=
    ImmShift.new_eq_some.mpr ⟨show 32 + k < 64 by omega, rfl⟩
  have narrow : ImmShift.new k .size32 = some k :=
    ImmShift.new_eq_some.mpr ⟨show k < 32 by omega, rfl⟩
  unfold magicShifted magicShift
  by_cases plain : correction = .none
  · subst plain
    simp only [wide]
    refine Eq.trans (b := some (⟨c.nextVreg + 1, .int⟩, _)) rfl ?_
    simp [LowerContext.emitted, magicCode, magicRegs]
  · by_cases still : k = 0
    · subst still
      cases correction with
      | none => exact absurd rfl plain
      | _ =>
        refine Eq.trans (b := some (⟨c.nextVreg + 1, .int⟩, _)) rfl ?_
        simp [LowerContext.emitted, magicCode, magicRegs]
    · simp only [ne_eq, still, not_false_eq_true, if_true, narrow]
      cases correction with
      | none => exact absurd rfl plain
      | _ =>
        refine Eq.trans (b := some (⟨c.nextVreg + 1, .int⟩, _)) rfl ?_
        simp [LowerContext.emitted, magicCode, magicRegs, still]

end

theorem lowerSignedDivRemMagic_selects {magic : SignedMagic} (here : Here c₀ c known)
    (isMagic : signedMagicI32 64 divisor = some (some magic)) (small : magic.shift ≤ 31)
    (divides : ∀ numerator, magic.apply numerator = numerator.sdiv divisor)
    (isOp : op = .div ∨ op = .rem) (isLhs : (lhsReg, a) ∈ known) (nonzero : divisor ≠ 0)
    (value : foldBinary op a divisor = some word) (done : f true = pure dst) :
    Selects P F val c₀ c (lowerSignedDivRemMagic op dst lhsReg divisor >>= f) known word := by
  have isSome (c : LowerContext) : (expect (signedMagicI32 64 divisor) : LowerM _) c =
      some (some magic, c) := by
    rw [isMagic]
    rfl
  have sign (c : LowerContext) : (expect (ImmShift.new 31 .size32) : LowerM Nat) c =
    some (31, c) := rfl
  have quotient : (magic.corrected a).sshiftRight magic.shift +
      ShiftOp.eval .lsr ((magic.corrected a).sshiftRight magic.shift) 31 = a.sdiv divisor :=
    divides a
  have isShift : (AluOp.add = .add ∨ AluOp.add = .sub) ∧ ShiftOp.lsr ≠ .ror ∨
      AluOp.add = .and ∨ AluOp.add = .orr ∨ AluOp.add = .eor := .inl ⟨.inl rfl, by decide⟩
  -- what both operations share: the multiplier and the shifted product
  have shared {g : Reg → LowerM Reg} (next : ∀ r m c₁,
      Here c₀ c₁ ((r, (magic.corrected a).sshiftRight magic.shift) ::
        (m, magic.multiplier) :: known) →
      Selects P F val c₀ c₁ (g r)
        ((r, (magic.corrected a).sshiftRight magic.shift) :: (m, magic.multiplier) :: known) word) :
      Selects P F val c₀ c (magicConst magic.multiplier divisor >>= fun multiplier =>
        magicShifted magic lhsReg multiplier >>= g) known word := by
    obtain ⟨m, c₁, run, fetches⟩ : ∃ m c₁, magicConst magic.multiplier divisor c = some (m, c₁) ∧
        Fetches P F val c₀ c c₁ m magic.multiplier := magicConst_spec here magic.multiplier
    refine .fetch run fetches here.allBelow ?_
    have here' := here.fetched fetches
    have isLhs' : (lhsReg, a) ∈ (m, magic.multiplier) :: known := List.mem_cons_of_mem _ isLhs
    refine .chunk (magicRegs magic) (magicCode magic lhsReg m c₁.nextVreg) here'
      (magicShifted_run magic small lhsReg m) ?_ (magicCode_encodable magic small _ _ _)
      (fun s holds => execCode_magic magic small s (holds _ isLhs') (holds _ List.mem_cons_self)
        (here'.allBelow _ isLhs')) fun c₂ here₂ _ => next _ m c₂ here₂
    unfold magicRegs
    dsimp only
    split
    · omega
    · split <;> omega
  unfold lowerSignedDivRemMagic
  rcases isOp with rfl | rfl
  · rw [foldBinary, if_neg nonzero] at value
    cases value
    rw [if_neg (by simp), bind_assoc]
    refine .step (isSome c) (.refl c) rfl ?_
    simp only [bind_assoc, reduceCtorEq, if_false, pure_bind, done]
    refine shared fun r m c₁ _ => .step (sign c₁) (.refl c₁) rfl ?_
    rw [← quotient]
    exact selects_aluRRRShift isShift (by decide) List.mem_cons_self List.mem_cons_self
  · rw [foldBinary, if_neg nonzero, Word.srem_eq] at value
    cases value
    rw [if_neg (by simp), bind_assoc]
    refine .step (isSome c) (.refl c) rfl ?_
    simp only [bind_assoc, if_true, pure_bind, done]
    refine shared fun r m c₁ here₁ => ?_
    have chunk : Selects P F val c₀ c₁ ((allocTmp .int32 >>= fun quotient =>
          expect (ImmShift.new 31 .size32) >>= fun sign =>
            LowerContext.emit (.aluRRRShift .add .size32 quotient (.reg r) r .lsr sign) >>= fun _ =>
              (pure quotient : LowerM Reg)) >>= fun quotient =>
        magicConst divisor divisor >>= fun divisorReg =>
          LowerContext.emit (.mSub .size32 dst quotient divisorReg lhsReg) >>= fun _ => pure dst)
        ((r, (magic.corrected a).sshiftRight magic.shift) :: (m, magic.multiplier) :: known)
        (a - a.sdiv divisor * divisor) := by
      refine .chunk 1 [.aluRRRShift .add .size32 ⟨c₁.nextVreg, .int⟩ (.reg r) r .lsr 31] here₁ rfl
        (show Reg.vreg ⟨c₁.nextVreg, .int⟩ < c₁.nextVreg + 1 from Nat.lt_succ_self _)
        (fun i member => ?_) (fun s holds => ?_) fun c₂
          (here₂ : Here c₀ c₂ ((⟨c₁.nextVreg, .int⟩, a.sdiv divisor) :: _)) _ => ?_
      · rw [List.mem_singleton.mp member]
        exact ⟨isShift, by decide⟩
      · have isR := holds _ List.mem_cons_self
        refine ⟨s.set ⟨c₁.nextVreg, .int⟩ (@Value.written .size32 (a.sdiv divisor)), ?_, ?_,
          fun q outside => s.set_of_ne ?_ _⟩
        · rw [execCode_cons, exec_aluRRRShift, RegOrZr.read, isR]
          exact congrArg (fun word => some (s.set _ (@Value.written .size32 word))) quotient
        · rw [ArithState.set_self, Value.read_written]
        · rintro rfl
          dsimp only at outside
          omega
      · obtain ⟨d, c₃, run, fetches⟩ : ∃ d c₃, magicConst divisor divisor c₂ = some (d, c₃) ∧
            Fetches P F val c₀ c₂ c₃ d divisor := magicConst_spec here₂ divisor
        refine .fetch run fetches here₂.allBelow ?_
        exact selects_mSub (List.mem_cons_of_mem _ List.mem_cons_self) List.mem_cons_self
          (List.mem_cons_of_mem _ (List.mem_cons_of_mem _ (List.mem_cons_of_mem _
            (List.mem_cons_of_mem _ isLhs))))
    simpa only [bind_assoc, pure_bind] using chunk

/-- A constant divisor that no sequence covers is zero. -/
theorem lowerDivRemConstant_selects {rest : LowerM Reg} (here : Here c₀ c known)
    (isLhs : (lhsReg, a) ∈ known) {rhsImm : Option (BitVec 32)} {b : BitVec 32}
    (isRhs : ∀ value, rhsImm = some value → b = value) (value : foldBinary op a b = some word)
    (general : Selects P F val c₀ c rest known word) :
    Selects P F val c₀ c (lowerDivRemConstant P F inst op rhsImm dst lhsReg >>= fun found =>
      if found then pure dst else rest) known word := by
  unfold lowerDivRemConstant
  by_cases divides : P.typeOf F inst = some .int32 ∧ (op = .div ∨ op = .rem)
  · rw [if_pos divides]
    cases rhsImm with
    | none => exact general
    | some divisor =>
      obtain rfl := isRhs divisor rfl
      have nonzero : b ≠ 0 := by
        rintro rfl
        rcases divides.2 with rfl | rfl <;> cases value
      simp only [bind_assoc]
      cases isPower : signedPowerOfTwo b with
      | some found =>
        obtain ⟨k, negative⟩ := found
        exact lowerSignedDivRemPowerOfTwo_selects here isPower divides.2 isLhs value rfl
      | none =>
        have skipped : lowerSignedDivRemPowerOfTwo op dst lhsReg b c = some (false, c) := by
          unfold lowerSignedDivRemPowerOfTwo
          rw [isPower]
          rfl
        refine .step skipped (.refl c) rfl ?_
        simp only [Bool.false_eq_true, if_false]
        have noPower : ¬ b.toInt.natAbs.isPowerOfTwo := by
          intro power
          rw [signedPowerOfTwo, if_neg nonzero, if_pos power] at isPower
          cases isPower
        have atLeast : 2 ≤ b.toInt.natAbs := by
          have notZero : b.toInt ≠ 0 := fun same => nonzero (BitVec.eq_of_toInt_eq same)
          have notOne : b.toInt.natAbs ≠ 1 := fun same => noPower ⟨0, same⟩
          omega
        obtain ⟨magic, small, isMagic, divide⟩ := signedMagic_correct b atLeast noPower
        exact lowerSignedDivRemMagic_selects here (isMagic 64 (by decide)) small divide
          divides.2 isLhs
          nonzero value rfl
  · rw [if_neg divides]
    exact general

end Division

/-! ## The selection -/

section Selection

variable {dst lhsReg : Reg} {known : List (Reg × BitVec 32)} {word : BitVec 32}
  (site : Site P F c₀ lowered inst op lhs rhs) (words : Words P F val lhs rhs)
  (here : Here c₀ c known)

include site words here

theorem lowerGeneral_selects (sunk : c.instSunk = c₀.instSunk) (scalar : op ≠ .min ∧ op ≠ .max)
    (isLhs : (lhsReg, val lhs) ∈ known) (value : foldBinary op (val lhs) (val rhs) = some word) :
    Selects P F val c₀ c
      (lowerGeneral P F inst op lhs rhs .size32 dst lhsReg >>= fun _ => pure dst) known word := by
  unfold lowerGeneral
  split
  · exact lowerAddSub_selects site words here sunk (by decide) isLhs value
  · exact lowerAddSub_selects site words here sunk (by decide) isLhs value
  · exact lowerLogic_selects site words here sunk (by decide) isLhs value
  · exact lowerLogic_selects site words here sunk (by decide) isLhs value
  · exact lowerLogic_selects site words here sunk (by decide) isLhs value
  · exact lowerShift_selects site words here sunk (by decide) isLhs value
  · exact lowerShift_selects site words here sunk (by decide) isLhs value
  · exact lowerShift_selects site words here sunk (by decide) isLhs value
  · cases value
    rw [bind_assoc]
    exact selects_rhs site words here sunk fun r c₁ _ =>
      selects_aluRRR .mul (List.mem_cons_of_mem _ isLhs) List.mem_cons_self
  · rw [foldBinary] at value
    split at value
    · cases value
    · cases value
      rw [bind_assoc]
      exact selects_rhs site words here sunk fun r c₁ _ =>
        selects_sDiv (List.mem_cons_of_mem _ isLhs) List.mem_cons_self
  · rw [foldBinary] at value
    split at value
    · cases value
    · cases value
      rw [Word.srem_eq, bind_assoc]
      have made : (allocTmp .int32 : LowerM Reg) c = some (⟨c.nextVreg, .int⟩, c.emitted 1 []) := by
        rw [LowerContext.emitted, List.append_nil]
        rfl
      have grows := c.grows_emitted 1 []
      have here' : Here c₀ (c.emitted 1 []) known := ⟨grows.numbered here.numbered,
        here.since.trans grows, fun k member => (here.allBelow k member).trans_le grows.vreg⟩
      refine .step made grows (List.append_nil _) ?_
      obtain ⟨r, c₁, run, fetches⟩ := putValueInReg_spec
        (site.operand words (.operand (.inr rfl)) site.rhsTy)
        (show rhs ∉ (c.emitted 1 []).instSunk by
          rw [show (c.emitted 1 []).instSunk = c.instSunk from rfl, sunk]
          exact site.operand_unsunk (.inr rfl)) here'.numbered here'.since
      rw [bind_assoc]
      refine .fetch run fetches here'.allBelow ?_
      have apart : r ≠ ⟨c.nextVreg, .int⟩ := by
        rintro rfl
        rcases fetches.fresh with held | new
        · exact here.numbered.free le_rfl held
        · exact absurd (show c.nextVreg + 1 ≤ c.nextVreg from new) (Nat.not_succ_le_self _)
      refine .ofCode (x := ()) 0 [.sDiv .size32 ⟨c.nextVreg, .int⟩ lhsReg r,
        .mSub .size32 dst ⟨c.nextVreg, .int⟩ r lhsReg] ?_ rfl (fun i member => ?_) fun s holds => ?_
      · refine Eq.trans (b := some ((), _)) rfl ?_
        simp [LowerContext.emitted]
      · rcases List.mem_cons.mp member with rfl | member
        · trivial
        · rw [List.mem_singleton.mp member]
          trivial
      · have isL := holds _ (List.mem_cons_of_mem _ isLhs)
        have isR := holds _ List.mem_cons_self
        rw [execCode_cons, exec_sDiv, Option.bind_some, execCode_cons, exec_mSub, Option.bind_some]
        refine ⟨_, rfl, ?_⟩
        rw [ArithState.set_self, Value.read_written, ArithState.set_self, Value.read_written,
          ArithState.set_of_ne _ apart, ArithState.set_of_ne _ (here.apart isLhs le_rfl), isL, isR]
  · exact lowerCompare_selects site words here sunk rfl isLhs value
  · exact lowerCompare_selects site words here sunk rfl isLhs value
  · exact lowerCompare_selects site words here sunk rfl isLhs value
  · exact lowerCompare_selects site words here sunk rfl isLhs value
  · exact lowerCompare_selects site words here sunk rfl isLhs value
  · exact lowerCompare_selects site words here sunk rfl isLhs value
  · exact absurd rfl scalar.1
  · exact absurd rfl scalar.2

theorem lowerUnfused_selects (sunk : c.instSunk = c₀.instSunk) (scalar : op ≠ .min ∧ op ≠ .max)
    (value : foldBinary op (val lhs) (val rhs) = some word) :
    Selects P F val c₀ c (lowerUnfused P F inst op lhs rhs .size32 dst) known word := by
  unfold lowerUnfused
  split
  · next minusOne =>
      obtain ⟨rfl, isConstant⟩ := minusOne
      rw [words.constant isConstant] at value
      obtain rfl : -1 - val rhs = word := Option.some.inj value
      have complement : -1 - val rhs = AluOp.eval .orn 0 (val rhs) := by
        simp [AluOp.eval, BitVec.not_eq_neg_add, BitVec.sub_eq_add_neg, BitVec.add_comm]
      rw [complement]
      exact selects_rhs site words here sunk fun r c₁ _ => selects_aluZr .orn List.mem_cons_self
  · refine .put (site.operand words (.operand (.inl rfl)) site.lhsTy)
      (by rw [sunk]; exact site.operand_unsunk (.inl rfl)) here
      fun r c₁ here₁ same => ?_
    split
    · next one =>
        obtain ⟨rfl, isConstant⟩ := one
        rw [words.constant isConstant] at value
        have whole : word = val lhs := by simpa [foldBinary] using value.symm
        rw [whole]
        exact .pure List.mem_cons_self
    · exact lowerDivRemConstant_selects here₁ List.mem_cons_self
        (fun constant isConstant => words.constant isConstant) value
        (lowerGeneral_selects site words here₁ (same.trans sunk) scalar List.mem_cons_self value)

/-- A multiplication by a constant, or else nothing but the register of an operand. -/
theorem tryFoldMulConstant_selects {f : Option Reg → LowerM Reg} (sunk : c.instSunk = c₀.instSunk)
    (isMul : op = .mul) (value : foldBinary op (val lhs) (val rhs) = some word)
    (folded : ∀ r, f (some r) = pure r)
    (unfolded : ∀ c₁ known, Here c₀ c₁ known → c₁.instSunk = c₀.instSunk →
      Selects P F val c₀ c₁ (f none) known word) :
    Selects P F val c₀ c (tryFoldMulConstant P F inst lhs rhs dst >>= f) known word := by
  subst isMul
  obtain rfl : val lhs * val rhs = word := Option.some.inj value
  unfold tryFoldMulConstant
  dsimp only
  cases isConstant : (integerConstant P F lhs).or (integerConstant P F rhs) with
  | none => exact unfolded c known here sunk
  | some constant =>
    have operand : ∃ y, (if (integerConstant P F lhs).isSome then rhs else lhs) = y ∧
        (y = lhs ∨ y = rhs) ∧ val lhs * val rhs = val y * constant := by
      cases left : integerConstant P F lhs with
      | some found =>
        rw [left] at isConstant
        cases isConstant
        refine ⟨rhs, rfl, .inr rfl, ?_⟩
        rw [words.constant left, BitVec.mul_comm]
      | none =>
        rw [left] at isConstant
        refine ⟨lhs, rfl, .inl rfl, ?_⟩
        rw [words.constant isConstant]
    obtain ⟨y, isY, isOperand, product⟩ := operand
    simp only [isY, bind_assoc]
    rw [product]
    refine .put (site.operand words (.operand isOperand) (site.operandTy isOperand))
      (by rw [sunk]; exact site.operand_unsunk isOperand) here fun r c₁ here₁ same => ?_
    by_cases one : constant = 1
    · rw [if_pos one, pure_bind, folded, one]
      refine .pure ?_
      rw [show val y * 1 = val y from BitVec.mul_one _]
      exact List.mem_cons_self
    · rw [if_neg one, bind_assoc]
      have size : (expect ((P.typeOf F inst).bind operandSize) : LowerM OperandSize) c₁ =
          some (.size32, c₁) := by
        rw [Program.typeOf, site.wellFormed.instData_eq site.data]
        rfl
      refine .step size (.refl c₁) rfl ?_
      cases isForm : foldMulConstant constant .size32 with
      | none =>
        rw [← product]
        exact unfolded c₁ _ here₁ (same.trans sunk)
      | some form =>
        obtain ⟨small, computes⟩ := foldMulConstant_eval isForm (val y)
        rw [computes]
        cases form with
        | lsl n =>
          simp only [bind_assoc, pure_bind, folded]
          have shifted : (MulConstForm.lsl n).eval (val y) =
              AluOp.eval .lsl (val y) (BitVec.ofNat 32 n) := by
            have below : n < 32 := small
            have whole : (BitVec.ofNat 32 n).toNat % 32 = n := by
              rw [BitVec.toNat_ofNat]
              omega
            rw [AluOp.eval, whole, MulConstForm.eval]
          rw [shifted]
          exact selects_aluRRImmShift (.inl rfl) small List.mem_cons_self
        | addLsl n =>
          simp only [bind_assoc, pure_bind, folded]
          exact selects_aluRRRShift (.inl ⟨.inl rfl, by decide⟩) small List.mem_cons_self
            List.mem_cons_self
        | subLsl n =>
          simp only [bind_assoc, pure_bind, folded]
          exact selects_aluRRRShift (.inl ⟨.inr rfl, by decide⟩) small List.mem_cons_self
            List.mem_cons_self
        | negLsl n =>
          simp only [bind_assoc, pure_bind, folded]
          exact selects_negShift small List.mem_cons_self

end Selection

/-! ## Fused products -/

theorem isMul_iff : isMul P F x = true ↔ ∃ a b, kindIn P F x = some (.binary .mul a b) := by
  unfold isMul
  split
  · next a b isKind => simp [isKind]
  · next other =>
      simp only [Bool.false_eq_true, false_iff, not_exists]
      exact fun a b isKind => other a b isKind

section Fusion

variable {known : List (Reg × BitVec 32)} {word : BitVec 32}
  {f : Option (BinaryOp × Reg × Reg × Reg) → LowerM Reg}
  (site : Site P F c lowered inst op lhs rhs) (words : Words P F val lhs rhs)

include site words

/-- The operands of a product among the operands. -/
theorem product_operands {y a b : Inst} (isOperand : y = lhs ∨ y = rhs)
    (isKind : kindIn P F y = some (.binary .mul a b)) :
    F.insts y = some ⟨.int32, .binary .mul a b⟩ ∧ P.typeOf F a = some .int32 ∧
      P.typeOf F b = some .int32 ∧ val y = val a * val b := by
  have isData := site.insts isOperand isKind
  obtain ⟨operandTy, aTy, bTy, isTy⟩ := site.wellTyped.binary isData
  obtain rfl : operandTy = .int32 := by simpa [BinaryOp.isCompare] using isTy.symm
  exact ⟨isData, aTy, bTy, (Option.some.inj (words.computed y _ _ a b isOperand isData aTy)).symm⟩

/-- A product is claimed and its operands are fetched, unless it is left alone. -/
theorem foldMulAddSub_selects (here : Here c c known)
    (candidate : ∀ y x, (match op, isMul P F lhs, isMul P F rhs with
        | .add, false, true => some (rhs, lhs)
        | .add, true, false => some (lhs, rhs)
        | .sub, false, true => some (rhs, lhs)
        | .add, true, true => some (lhs, rhs)
        | _, _, _ => none) = some (y, x) →
      canSinkPureSingleUseProducer P F c y inst inst = true →
      F.parentBlock y = F.parentBlock inst →
      (y = lhs ∨ y = rhs) ∧ (x = lhs ∨ x = rhs) ∧ x ≠ y ∧
        ∀ l r z a b c₁ known₁, Here c c₁ known₁ → val y = a * b → (l, a) ∈ known₁ →
          (r, b) ∈ known₁ →
          (z, val x) ∈ known₁ → Selects P F val c c₁ (f (some (op, l, r, z))) known₁ word)
    (unfolded : Selects P F val c c (f none) known word) :
    Selects P F val c c (foldMulAddSub P F inst op lhs rhs .size32 >>= f) known word := by
  unfold foldMulAddSub
  dsimp only
  split
  · exact unfolded
  · next y x isCandidate =>
      split
      · next a b isKind =>
          by_cases rejected : (!fusionTypesMatch P F .size32 [inst, lhs, rhs, y, a, b]) = true ∨
              F.parentBlock y ≠ F.parentBlock inst
          · rw [if_pos rejected]
            exact unfolded
          · rw [if_neg rejected, bind_assoc]
            have sameBlock : F.parentBlock y = F.parentBlock inst := by
              by_contra differ
              exact rejected (.inr differ)
            by_cases can : canSinkPureSingleUseProducer P F c y inst inst = true
            · obtain ⟨isOperand, isAddend, apart, folded⟩ := candidate y x isCandidate can sameBlock
              obtain ⟨isData, aTy, bTy, product⟩ := product_operands site words isOperand isKind
              have unsunk {z : Inst} (differ : z ≠ y) (before : z ∉ c.instSunk) :
                  z ∉ (c.sink y).instSunk := fun member =>
                    (List.mem_cons.mp member).elim differ before
              have inner {z : Inst} (used : z ∈ (InstKind.binary .mul a b).instUsage) :
                  z ∉ (c.sink y).instSunk :=
                unsunk (canSink_reads site.wellFormed can isData used)
                  (site.inner_unsunk isOperand isData used)
              refine .step ((sinkPureSingleUseProducer_eq c y inst).trans (if_pos can))
                (c.grows_sink y) rfl ?_
              simp only [if_true, bind_assoc, pure_bind]
              have reads : a ∈ (InstKind.binary .mul a b).instUsage ∧
                  b ∈ (InstKind.binary .mul a b).instUsage := by
                simp [InstKind.instUsage]
              refine .put (site.operand words (.inner isOperand isData reads.1) aTy)
                (inner reads.1) (here.sink y) fun l c₁ here₁ same₁ => ?_
              refine .put (site.operand words (.inner isOperand isData reads.2) bTy)
                (by rw [same₁]; exact inner reads.2) here₁ fun r c₂ here₂ same₂ => ?_
              refine .put (site.operand words (.operand isAddend) (site.operandTy isAddend))
                (by rw [same₂, same₁]; exact unsunk apart (site.operand_unsunk isAddend)) here₂
                fun z c₃ here₃ _ => ?_
              exact folded l r z _ _ c₃ _ here₃ product
                (List.mem_cons_of_mem _ (List.mem_cons_of_mem _ List.mem_cons_self))
                (List.mem_cons_of_mem _ List.mem_cons_self) List.mem_cons_self
            · refine .step ((sinkPureSingleUseProducer_eq c y inst).trans (if_neg can))
                (.refl c) rfl ?_
              simp only [Bool.false_eq_true, if_false, pure_bind]
              exact unfolded
      · exact unfolded

end Fusion

/-! ## The whole selection -/

variable (P F) in
/-- The sum of a product with itself, where the product can be claimed. -/
def DoublesProduct (c : LowerContext) (inst : Inst) (op : BinaryOp) (lhs rhs : Inst) : Prop :=
  op = .add ∧ lhs = rhs ∧ isMul P F lhs = true ∧ F.parentBlock lhs = F.parentBlock inst ∧
    canSinkPureSingleUseProducer P F c lhs inst inst = true

theorem lowerBinary_selects {word : BitVec 32} (site : Site P F c lowered inst op lhs rhs)
    (words : Words P F val lhs rhs) (scalar : op ≠ .min ∧ op ≠ .max)
    (value : foldBinary op (val lhs) (val rhs) = some word)
    (apart : ¬ DoublesProduct P F c inst op lhs rhs) :
    Selects P F val c c (lowerBinary P F inst op lhs rhs) [] word := by
  obtain ⟨dst, isReg, isVirtual⟩ := site.result
  have here : Here c c [] :=
    ⟨site.numbered, .refl c, fun _ member => absurd member List.not_mem_nil⟩
  have resultReg : LowerContext.resultReg P F inst c = some (dst, c) := by
    simp [LowerContext.resultReg, site.wellFormed.instData_eq site.data, isReg, isVirtual]
  have size : (expect ((P.typeOf F lhs).bind operandSize) : LowerM OperandSize) c =
      some (.size32, c) := by
    rw [site.lhsTy]
    rfl
  unfold lowerBinary
  refine .step resultReg (.refl c) rfl (.step size (.refl c) rfl ?_)
  refine foldMulAddSub_selects site words here (fun y x isCandidate can sameBlock => ?_) ?_
  · have differ {u v : Inst} (left : isMul P F u = false) (right : isMul P F v = true) : u ≠ v := by
      rintro rfl
      rw [left] at right
      cases right
    split at isCandidate
    · next lhsPlain rhsMul =>
        cases isCandidate
        obtain rfl : val lhs + val rhs = word := Option.some.inj value
        refine ⟨.inr rfl, .inl rfl, differ lhsPlain rhsMul,
          fun l r z a b c₁ known _ isProduct isL isR isZ => ?_⟩
        rw [isProduct]
        exact selects_mAdd isL isR isZ
    · next lhsMul rhsPlain =>
        cases isCandidate
        obtain rfl : val lhs + val rhs = word := Option.some.inj value
        refine ⟨.inl rfl, .inr rfl, differ rhsPlain lhsMul,
          fun l r z a b c₁ known _ isProduct isL isR isZ => ?_⟩
        rw [isProduct, BitVec.add_comm]
        exact selects_mAdd isL isR isZ
    · next lhsPlain rhsMul =>
        cases isCandidate
        obtain rfl : val lhs - val rhs = word := Option.some.inj value
        refine ⟨.inr rfl, .inl rfl, differ lhsPlain rhsMul,
          fun l r z a b c₁ known _ isProduct isL isR isZ => ?_⟩
        rw [isProduct]
        exact selects_mSub isL isR isZ
    · next lhsMul rhsMul =>
        cases isCandidate
        obtain rfl : val lhs + val rhs = word := Option.some.inj value
        refine ⟨.inl rfl, .inr rfl, fun same => apart ⟨rfl, same.symm, lhsMul, sameBlock, can⟩,
          fun l r z a b c₁ known _ isProduct isL isR isZ => ?_⟩
        rw [isProduct, BitVec.add_comm]
        exact selects_mAdd isL isR isZ
    · cases isCandidate
  · by_cases isMul : op = .mul
    · simp only [if_pos isMul]
      refine tryFoldMulConstant_selects site words here rfl isMul value (fun r => rfl)
        fun c₁ known here₁ sunk => ?_
      exact lowerUnfused_selects site words here₁ sunk scalar value
    · simp only [if_neg isMul, pure_bind]
      exact lowerUnfused_selects site words here rfl scalar value

/-- The sum of a product with itself is not lowered: the product has been sunk when it is asked
for as the addend. -/
theorem lowerBinary_doublesProduct (site : Site P F c lowered inst op lhs rhs)
    (doubles : DoublesProduct P F c inst op lhs rhs) :
    lowerBinary P F inst op lhs rhs c = none := by
  obtain ⟨rfl, rfl, mul, sameBlock, can⟩ := doubles
  obtain ⟨dst, isReg, isVirtual⟩ := site.result
  obtain ⟨a, b, isKind⟩ := isMul_iff.mp mul
  have isData := site.insts (.inl rfl) isKind
  have reads : a ∈ (InstKind.binary .mul a b).instUsage ∧
      b ∈ (InstKind.binary .mul a b).instUsage := by
    simp [InstKind.instUsage]
  obtain ⟨operandTy, aTy, bTy, isTy⟩ := site.wellTyped.binary isData
  obtain rfl : operandTy = .int32 := by simpa [BinaryOp.isCompare] using isTy.symm
  -- the words do not matter here, only that the operands of the product are put in registers
  have operand {x : Inst} (used : x ∈ (InstKind.binary .mul a b).instUsage)
      (ty : P.typeOf F x = some .int32) :
      I32Operand P F (fun x => (integerConstant P F x).getD 0) x := by
    obtain ⟨⟨ty', kind⟩, found, isTy⟩ := Option.map_eq_some_iff.mp ty
    obtain rfl : ty' = .int32 := isTy
    obtain ⟨notFloat, notGlobal, -⟩ := site.typed x kind (.inner (.inl rfl) isData used) found
    refine ⟨⟨kind, found, notFloat, notGlobal⟩, fun value isInteger => ?_, fun isUndef => ?_⟩
    · rw [integerConstant_eq_some.mpr isInteger]
      rfl
    · rw [integerConstant, isUndef]
      rfl
  have inner {z : Inst} (used : z ∈ (InstKind.binary .mul a b).instUsage) :
      z ∉ (c.sink lhs).instSunk := fun member =>
    (List.mem_cons.mp member).elim (canSink_reads site.wellFormed can isData used)
      (site.inner_unsunk (.inl rfl) isData used)
  have here : Here c (c.sink lhs) [] := Here.sink ⟨site.numbered, .refl c,
    fun _ member => absurd member List.not_mem_nil⟩ lhs
  obtain ⟨l, c₁, first, fetches₁⟩ := putValueInReg_spec (operand reads.1 aTy)
    (inner reads.1) here.numbered here.since
  obtain ⟨r, c₂, second, fetches₂⟩ := putValueInReg_spec (operand reads.2 bTy)
    (by rw [fetches₁.sunk]; exact inner reads.2)
    (fetches₁.grows.numbered here.numbered) (here.since.trans fetches₁.grows)
  have third : putValueInReg P F lhs c₂ = none := by
    have sunk : lhs ∈ c₂.instSunk := by
      rw [fetches₂.sunk, fetches₁.sunk]
      exact List.mem_cons_self
    unfold putValueInReg
    show (countUse lhs c₂).bind _ = _
    rw [countUse, if_pos sunk]
    rfl
  have accepted : ¬ ((!fusionTypesMatch P F .size32 [inst, lhs, lhs, lhs, a, b]) = true ∨
      F.parentBlock lhs ≠ F.parentBlock inst) := by
    have instTy : P.typeOf F inst = some .int32 := by
      rw [Program.typeOf, site.wellFormed.instData_eq site.data]
      rfl
    simp [fusionTypesMatch, instTy, site.lhsTy, aTy, bTy, sameBlock]
  have resultReg : LowerContext.resultReg P F inst c = some (dst, c) := by
    simp [LowerContext.resultReg, site.wellFormed.instData_eq site.data, isReg, isVirtual]
  have fused : foldMulAddSub P F inst .add lhs lhs .size32 c = none := by
    unfold foldMulAddSub
    simp only [mul, isKind]
    rw [if_neg accepted]
    show (sinkPureSingleUseProducer P F lhs inst c).bind _ = _
    rw [sinkPureSingleUseProducer_eq, if_pos can]
    show (putValueInReg P F a (c.sink lhs)).bind _ = _
    rw [first]
    show (putValueInReg P F b c₁).bind _ = _
    rw [second]
    show (putValueInReg P F lhs c₂).bind _ = _
    rw [third]
    rfl
  unfold lowerBinary
  show (LowerContext.resultReg P F inst c).bind _ = _
  rw [resultReg, site.lhsTy]
  show (foldMulAddSub P F inst .add lhs lhs .size32 c).bind _ = _
  rw [fused]
  rfl

/-- The selection is exact unless it claims a product that is its own addend: it returns, its
instructions can be encoded, and from registers that hold what was asked for, the code leaves
the value of the instruction in the register it returns. -/
theorem lowerBinary_exact_iff {word : BitVec 32} (site : Site P F c lowered inst op lhs rhs)
    (words : Words P F val lhs rhs) (scalar : op ≠ .min ∧ op ≠ .max)
    (value : foldBinary op (val lhs) (val rhs) = some word) :
    (∃ r c' code, lowerBinary P F inst op lhs rhs c = some (r, c') ∧
      c'.irInst = c.irInst ++ code ∧ (∀ i ∈ code, Encodable i) ∧
      ∀ s : ArithState, Ready P F val c c' s.regs →
        ∃ s', execCode s code = some s' ∧ (s'.regs r).read .size32 = word) ↔
      ¬ DoublesProduct P F c inst op lhs rhs := by
  constructor
  · rintro ⟨r, c', code, run, -⟩ doubles
    rw [lowerBinary_doublesProduct site doubles] at run
    cases run
  · intro apart
    obtain ⟨r, c', code, run, -, emitted, encodable, exec⟩ :=
      lowerBinary_selects site words scalar value apart
    exact ⟨r, c', code, run, emitted, encodable, fun s ready =>
      exec s ready fun _ member => absurd member List.not_mem_nil⟩

end Exact

/-! ## A square and a sum -/

/-- `x * x + x` or `x * x + x * x`. -/
def sumOfSquare (addend : Inst) : Listing where
  retTy := .int32
  name := "sum"
  paramsTy := [.int32]
  layout := [(0, [1, 2, 3])]
  insts := [(0, ⟨.int32, .blockArgRef 0⟩), (1, ⟨.int32, .binary .mul 0 0⟩),
    (2, ⟨.int32, .binary .add 1 addend⟩), (3, ⟨.unit, .ret (some 2)⟩)]
  nextInst := 4
  blockParams := [(0, [0])]
  nextBlock := 1

/-- `int a = 1;` -/
def besideGlobal : Program where
  funcs := []
  functionLayout := []
  globals x := [(globalIdStart, ⟨.int32, .integer 1⟩),
    (globalIdStart + 1, ⟨.pointer .int32, .globalAlloc globalIdStart⟩)].lookup x
  globalLayout := [globalIdStart + 1]
  mainFunction := none

/-- The context when the walk comes to the sum. -/
def sumContext : LowerContext where
  curInst := some 2
  nextVreg := 195
  regMap x := if x < 3 then some ⟨192 + x, .int⟩ else none
  valueLoweredUse x := if x = 2 then 1 else 0
  instSunk := []
  currentLoop := none
  preheader _ := none
  loopConstMulti := []
  loopConstShared _ := none
  loopEmissions := []
  blockConstMulti := []
  blockConstShared _ := none
  irInst := []

section SumOfSquare

variable {addend : Inst} (isAddend : addend = 0 ∨ addend = 1)

theorem sumOfSquare_cases {x : Inst} {data : InstData}
    (found : (sumOfSquare addend).toFunctionData.insts x = some data) :
    x = 0 ∧ data = ⟨.int32, .blockArgRef 0⟩ ∨ x = 1 ∧ data = ⟨.int32, .binary .mul 0 0⟩ ∨
      x = 2 ∧ data = ⟨.int32, .binary .add 1 addend⟩ ∨ x = 3 ∧ data = ⟨.unit, .ret (some 2)⟩ := by
  have member := mem_of_lookup found
  simpa [sumOfSquare] using member

theorem sumOfSquare_constant {x : Inst} {kind : InstKind}
    (isKind : kindIn besideGlobal (sumOfSquare addend).toFunctionData x = some kind)
    (isConstant : (∃ value, kind = .integer value) ∨ kind = .undef) :
    x = globalIdStart ∧ kind = .integer 1 := by
  obtain ⟨data, found, rfl⟩ := Option.map_eq_some_iff.mp isKind
  unfold Program.instData at found
  split at found
  · have member := mem_of_lookup found
    simp only [List.mem_cons, List.not_mem_nil, or_false, Prod.mk.injEq] at member
    rcases member with ⟨rfl, rfl⟩ | ⟨rfl, rfl⟩
    · exact ⟨rfl, rfl⟩
    · rcases isConstant with ⟨value, isConstant⟩ | isConstant <;> cases isConstant
  · rcases sumOfSquare_cases found with ⟨-, rfl⟩ | ⟨-, rfl⟩ | ⟨-, rfl⟩ | ⟨-, rfl⟩ <;>
      rcases isConstant with ⟨value, isConstant⟩ | isConstant <;> cases isConstant

include isAddend

theorem sumOfSquare_asked {x : Inst}
    (asked : Asked (sumOfSquare addend).toFunctionData 1 addend x) : x = 0 ∨ x = 1 := by
  have isLow {y : Inst} (isOperand : y = 1 ∨ y = addend) : y = 0 ∨ y = 1 := by
    rcases isOperand with rfl | rfl
    · exact .inr rfl
    · exact isAddend
  cases asked with
  | operand isOperand => exact isLow isOperand
  | @inner y _ data isOperand isData used =>
    rcases sumOfSquare_cases isData with ⟨-, rfl⟩ | ⟨-, rfl⟩ | ⟨rfl, -⟩ | ⟨rfl, -⟩
    · cases used
    · exact .inl (by simpa [InstKind.instUsage] using used)
    · exact absurd (isLow isOperand) (by decide)
    · exact absurd (isLow isOperand) (by decide)

theorem sumOfSquare_site : Site besideGlobal (sumOfSquare addend).toFunctionData sumContext
    (fun _ => False) 2 .add 1 addend where
  wellFormed := by
    rcases isAddend with rfl | rfl <;> exact Listing.wellFormed_toFunctionData (by decide)
  wellTyped := by
    rcases isAddend with rfl | rfl <;> exact Listing.wellTyped_toFunctionData (by decide)
  data := rfl
  lhsTy := rfl
  rhsTy := by rcases isAddend with rfl | rfl <;> rfl
  typed x kind asked found := by
    have isLocal : x.isGlobal = false := by
      rcases sumOfSquare_asked isAddend asked with rfl | rfl <;> rfl
    rw [Program.instData, isLocal] at found
    rcases sumOfSquare_cases found with ⟨-, isKind⟩ | ⟨-, isKind⟩ | ⟨-, isKind⟩ | ⟨-, isKind⟩ <;>
      cases isKind <;> exact ⟨by simp, by simp, fun _ _ _ _ => isLocal⟩
  current := rfl
  numbered r held := by
    rcases held with ⟨v, isReg⟩ | ⟨k, isReg⟩ | ⟨k, isReg⟩
    · simp only [sumContext] at isReg
      split at isReg
      · next below =>
          cases isReg
          exact Nat.add_lt_add_left below 192
      · cases isReg
    · cases isReg
    · cases isReg
  result := ⟨⟨194, .int⟩, rfl, by decide⟩
  unlowered := ⟨not_false, List.not_mem_nil, not_false, not_false⟩
  sunk p member := absurd member List.not_mem_nil

theorem sumOfSquare_words (val : Inst → BitVec 32) (constant : val globalIdStart = 1)
    (square : val 1 = val 0 * val 0) :
    Words besideGlobal (sumOfSquare addend).toFunctionData val 1 addend where
  integer x value isKind := by
    obtain ⟨rfl, isOne⟩ := sumOfSquare_constant isKind (.inl ⟨value, rfl⟩)
    cases isOne
    exact constant
  undef x isKind := by
    obtain ⟨-, isOne⟩ := sumOfSquare_constant isKind (.inr rfl)
    cases isOne
  computed y ty op a b isOperand found _ := by
    have notSum : y ≠ 2 := by
      rcases isAddend with rfl | rfl <;> rcases isOperand with rfl | rfl <;> decide
    rcases sumOfSquare_cases found with ⟨-, isKind⟩ | ⟨rfl, isKind⟩ | ⟨rfl, -⟩ | ⟨-, isKind⟩
    · cases isKind
    · cases isKind
      rw [square]
      rfl
    · exact absurd rfl notSum
    · cases isKind

end SumOfSquare

/-- `x` is 3, and the constant of the program is 1. -/
def threeSquared (x : Inst) : BitVec 32 := if x = 0 then 3 else if x = globalIdStart then 1 else 9

/-- `x * x + x * x` is not lowered. -/
theorem lowerBinary_refuses_sumOfSquare :
    Site besideGlobal (sumOfSquare 1).toFunctionData sumContext (fun _ => False) 2 .add 1 1 ∧
      Words besideGlobal (sumOfSquare 1).toFunctionData threeSquared 1 1 ∧
      foldBinary .add (threeSquared 1) (threeSquared 1) = some 18 ∧
      lowerBinary besideGlobal (sumOfSquare 1).toFunctionData 2 .add 1 1 sumContext = none :=
  ⟨sumOfSquare_site (.inr rfl), sumOfSquare_words (.inr rfl) _ rfl rfl, rfl,
    lowerBinary_doublesProduct (sumOfSquare_site (.inr rfl))
      ⟨rfl, rfl, by decide, by decide, by decide⟩⟩

theorem lowerBinary_exact_iff_sumOfSquare :
    (∃ r c' code, lowerBinary besideGlobal (sumOfSquare 0).toFunctionData 2 .add 1 0 sumContext =
        some (r, c') ∧ c'.irInst = sumContext.irInst ++ code ∧ (∀ i ∈ code, Encodable i) ∧
      ∀ s : ArithState, Ready besideGlobal (sumOfSquare 0).toFunctionData threeSquared sumContext
          c' s.regs →
        ∃ s', execCode s code = some s' ∧ (s'.regs r).read .size32 = 12) ↔
      ¬ DoublesProduct besideGlobal (sumOfSquare 0).toFunctionData sumContext 2 .add 1 0 :=
  lowerBinary_exact_iff (sumOfSquare_site (.inl rfl)) (sumOfSquare_words (.inl rfl) _ rfl rfl)
    (by decide) (by decide)

end AnonCompiler.Mir
