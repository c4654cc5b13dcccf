import AnonCompiler.Mir.LowerContext

/-!
# What the lowering context promises

A context grows: registers are only added, under new numbers, and uses are only counted up.
Code that fetches operands writes new registers, so whatever is known of the old ones stays
known.  `Selects` says of a piece of selection that it comes back with a register, that what
it emits can be encoded, and that running it leaves a given word in that register.
-/

set_option autoImplicit false

namespace AnonCompiler.Mir

open Ir

/-! ## Growing contexts -/

namespace LowerContext

/-- The register belongs to a value or to a shared constant. -/
def Holding (c : LowerContext) (r : Reg) : Prop :=
  (∃ v, c.regMap v = some r) ∨ (∃ k, c.loopConstShared k = some r) ∨
    ∃ k, c.blockConstShared k = some r

/-- The next number is new. -/
def Numbered (c : LowerContext) : Prop := ∀ r, c.Holding r → r.vreg < c.nextVreg

structure Grows (c c' : LowerContext) : Prop where
  vreg : c.nextVreg ≤ c'.nextVreg
  loop : c'.currentLoop = c.currentLoop
  regMap : ∀ v r, c.regMap v = some r → c'.regMap v = some r
  loopShared : ∀ k r, c.loopConstShared k = some r → c'.loopConstShared k = some r
  blockShared : ∀ k r, c.blockConstShared k = some r → c'.blockConstShared k = some r
  holding : ∀ r, c'.Holding r → c.Holding r ∨ c.nextVreg ≤ r.vreg ∧ r.vreg < c'.nextVreg
  uses : ∀ v, c.valueLoweredUse v ≤ c'.valueLoweredUse v

namespace Grows

variable {c c' c'' : LowerContext}

theorem refl (c : LowerContext) : Grows c c :=
  ⟨le_rfl, rfl, fun _ _ h => h, fun _ _ h => h, fun _ _ h => h, fun _ h => .inl h, fun _ => le_rfl⟩

theorem trans (first : Grows c c') (second : Grows c' c'') : Grows c c'' where
  vreg := first.vreg.trans second.vreg
  loop := second.loop.trans first.loop
  regMap v r h := second.regMap v r (first.regMap v r h)
  loopShared k r h := second.loopShared k r (first.loopShared k r h)
  blockShared k r h := second.blockShared k r (first.blockShared k r h)
  uses v := (first.uses v).trans (second.uses v)
  holding r h := by
    have := first.vreg
    have := second.vreg
    rcases second.holding r h with old | new
    · rcases first.holding r old with older | new
      · exact .inl older
      · exact .inr (by omega)
    · exact .inr (by omega)

theorem numbered (grows : Grows c c') (numbered : c.Numbered) : c'.Numbered := by
  intro r held
  have := grows.vreg
  rcases grows.holding r held with old | new
  · have := numbered r old
    omega
  · exact new.2

/-- A new register that nothing holds stays free. -/
theorem not_holding (grows : Grows c c') {r : Reg} (free : ¬ c.Holding r)
    (below : r.vreg < c.nextVreg) : ¬ c'.Holding r := by
  intro held
  rcases grows.holding r held with old | new
  · exact free old
  · omega

/-- Contexts that differ in what is emitted and in the next number. -/
theorem of_same (vreg : c.nextVreg ≤ c'.nextVreg) (loop : c'.currentLoop = c.currentLoop)
    (regMap : c'.regMap = c.regMap) (loopShared : c'.loopConstShared = c.loopConstShared)
    (blockShared : c'.blockConstShared = c.blockConstShared)
    (uses : c'.valueLoweredUse = c.valueLoweredUse) : Grows c c' where
  vreg := vreg
  loop := loop
  regMap v r h := by rwa [regMap]
  loopShared k r h := by rwa [loopShared]
  blockShared k r h := by rwa [blockShared]
  uses v := by rw [uses]
  holding r h := by
    rw [Holding, regMap, loopShared, blockShared] at h
    exact .inl h

end Grows

/-- The register of a new number is free. -/
theorem Numbered.free {c : LowerContext} (numbered : c.Numbered) {r : Reg}
    (new : c.nextVreg ≤ r.vreg) : ¬ c.Holding r := fun held => by
  have := numbered r held
  omega

end LowerContext

open LowerContext

/-! ## The values in the registers -/

/-- Values that are made anew wherever they are used. -/
def isRematerialized : InstKind → Bool
  | .integer _ | .float _ | .globalAlloc _ | .undef => true
  | _ => false

section Spec

variable (P : Program) (F : FunctionData) (val : Inst → BitVec 32)

/-- The registers when the code of `c'` runs: the values that the selection has asked for
since `c₀` are in their registers, and so are the shared constants. -/
structure Ready (c₀ c' : LowerContext) (ρ : Reg → Value) : Prop where
  value : ∀ v kind r, c₀.valueLoweredUse v < c'.valueLoweredUse v → kindIn P F v = some kind →
    isRematerialized kind = false → c'.regMap v = some r → (ρ r).read .size32 = val v
  loop : ∀ l k r, c'.currentLoop = some l → c'.loopConstShared (l, k) = some r →
    (ρ r).read .size32 = BitVec.ofInt 32 k
  block : ∀ k r, c'.blockConstShared k = some r → (ρ r).read .size32 = BitVec.ofInt 32 k

variable {P F val}

variable {known : List (Reg × BitVec 32)}

theorem Ready.congr {c₀ c' : LowerContext} {ρ ρ' : Reg → Value} (ready : Ready P F val c₀ c' ρ)
    (same : ∀ r, c'.Holding r → ρ' r = ρ r) : Ready P F val c₀ c' ρ' where
  value v kind r used isKind notRemat isReg := by
    rw [same r (.inl ⟨v, isReg⟩)]
    exact ready.value v kind r used isKind notRemat isReg
  loop l k r isLoop isReg := by
    rw [same r (.inr (.inl ⟨_, isReg⟩))]
    exact ready.loop l k r isLoop isReg
  block k r isReg := by
    rw [same r (.inr (.inr ⟨k, isReg⟩))]
    exact ready.block k r isReg

variable (P F val)

/-- An operand of type `i32`. -/
structure I32Operand (x : Inst) : Prop where
  data : ∃ kind, P.instData F x = some ⟨.int32, kind⟩ ∧ (∀ bits, kind ≠ .float bits) ∧
    ∀ init, kind ≠ .globalAlloc init
  integer : ∀ value, kindIn P F x = some (.integer value) → val x = value
  undef : kindIn P F x = some .undef → val x = 0

/-- What a piece of selection does that fetches a word into a register. -/
structure Fetches (c₀ c c₁ : LowerContext) (r : Reg) (word : BitVec 32) : Prop where
  grows : Grows c c₁
  sunk : c₁.instSunk = c.instSunk
  below : r.vreg < c₁.nextVreg
  fresh : c.Holding r ∨ c.nextVreg ≤ r.vreg
  runs : ∃ code, c₁.irInst = c.irInst ++ code ∧ (∀ i ∈ code, Encodable i) ∧
    ∀ c', Grows c₁ c' → ∀ s : ArithState, Ready P F val c₀ c' s.regs →
      ∃ s', execCode s code = some s' ∧ (∀ q, q.vreg < c.nextVreg → s'.regs q = s.regs q) ∧
        (∀ q, c'.Holding q → s'.regs q = s.regs q) ∧ (s'.regs r).read .size32 = word

variable {P F val}

variable {c₀ c c₁ c₂ : LowerContext} {r : Reg} {word : BitVec 32}

/-- A word that is in the register already. -/
theorem Fetches.still (grows : Grows c c₁) (sunk : c₁.instSunk = c.instSunk)
    (numbered : c.Numbered) (held : c₁.Holding r) (same : c₁.irInst = c.irInst)
    (holds : ∀ c', Grows c₁ c' → ∀ ρ, Ready P F val c₀ c' ρ → (ρ r).read .size32 = word) :
    Fetches P F val c₀ c c₁ r word where
  grows := grows
  sunk := sunk
  below := grows.numbered numbered r held
  fresh := (grows.holding r held).imp_right And.left
  runs := ⟨[], by rw [same, List.append_nil], fun _ member => absurd member List.not_mem_nil,
    fun c' later s ready => ⟨s, rfl, fun _ _ => rfl, fun _ _ => rfl, holds c' later _ ready⟩⟩

/-- Growing first, without code. -/
theorem Fetches.after (grows : Grows c c₁) (sunk : c₁.instSunk = c.instSunk)
    (same : c₁.irInst = c.irInst) (fetches : Fetches P F val c₀ c₁ c₂ r word) :
    Fetches P F val c₀ c c₂ r word where
  grows := grows.trans fetches.grows
  sunk := fetches.sunk.trans sunk
  below := fetches.below
  fresh := by
    rcases fetches.fresh with held | new
    · exact (grows.holding r held).imp_right And.left
    · exact .inr (grows.vreg.trans new)
  runs := by
    obtain ⟨code, emitted, encodable, runs⟩ := fetches.runs
    refine ⟨code, by rw [emitted, same], encodable, fun c' later s ready => ?_⟩
    obtain ⟨s', run, old, held, holds⟩ := runs c' later s ready
    exact ⟨s', run, fun q below => old q (below.trans_le grows.vreg), held, holds⟩

/-- The context after a constant has been moved to a new register. -/
def LowerContext.loaded (c : LowerContext) (value : BitVec 64) : LowerContext :=
  { c with
    nextVreg := c.nextVreg + 1
    irInst := c.irInst ++ [ArithInst.loadImm .size32 ⟨c.nextVreg, .int⟩ value] }

/-- A constant is moved to a new register. -/
theorem fetches_loaded (numbered : c.Numbered) (value : BitVec 64) :
    Fetches P F val c₀ c (c.loaded value) ⟨c.nextVreg, .int⟩ (value.setWidth 32) where
  grows := .of_same (Nat.le_succ _) rfl rfl rfl rfl rfl
  sunk := rfl
  below := Nat.lt_succ_self _
  fresh := .inr le_rfl
  runs := by
    refine ⟨[ArithInst.loadImm .size32 ⟨c.nextVreg, .int⟩ value], rfl,
      fun i member => ?_, fun c' later s ready => ?_⟩
    · rw [List.mem_singleton.mp member]
      trivial
    · have free : ¬ c'.Holding ⟨c.nextVreg, .int⟩ :=
        later.not_holding (numbered.free le_rfl) (Nat.lt_succ_self _)
      refine ⟨s.set ⟨c.nextVreg, .int⟩ (@Value.written .size32 (value.setWidth 32)), ?_,
        fun q below => ?_, fun q held => ?_, ?_⟩
      · rw [execCode_cons, exec_loadImm]
        rfl
      · refine s.set_of_ne ?_ _
        rintro rfl
        exact absurd below (lt_irrefl _)
      · refine s.set_of_ne ?_ _
        rintro rfl
        exact free held
      · rw [ArithState.set_self, Value.read_written]

/-! ## Shared constants -/

variable (P F val) in
/-- What comes back for a constant that may be shared. -/
structure SharesConst (c₀ c c₁ : LowerContext) (value : Int) (shared : Option Reg) : Prop where
  grows : Grows c c₁
  sunk : c₁.instSunk = c.instSunk
  same : c₁.irInst = c.irInst
  reg : ∀ r, shared = some r → c₁.Holding r ∧ ∀ c', Grows c₁ c' → ∀ ρ,
    Ready P F val c₀ c' ρ → (ρ r).read .size32 = BitVec.ofInt 32 value

theorem SharesConst.none (c : LowerContext) (value : Int) : SharesConst P F val c₀ c c value none :=
  ⟨.refl c, rfl, rfl, fun _ isSome => by cases isSome⟩

theorem loopConstToReg_spec (value gateOn : Int) :
    ∃ shared c₁, loopConstToReg value gateOn c = some (shared, c₁) ∧
      SharesConst P F val c₀ c c₁ value shared := by
  unfold loopConstToReg
  split
  · exact ⟨_, _, rfl, .none c value⟩
  · next l isLoop =>
      split
      · exact ⟨_, _, rfl, .none c value⟩
      · split
        · next shared isShared =>
            refine ⟨_, _, rfl, .refl c, rfl, rfl, fun r isR => ?_⟩
            cases isR
            refine ⟨.inr (.inl ⟨_, isShared⟩), fun c' later ρ ready => ?_⟩
            exact ready.loop l value shared (later.loop.trans isLoop)
              (later.loopShared _ _ isShared)
        · next new =>
            split
            · exact ⟨_, _, rfl, .none c value⟩
            · refine ⟨_, _, rfl, ⟨Nat.le_succ _, rfl, fun _ _ h => h, fun k r h => ?_,
                fun _ _ h => h, fun r held => ?_, fun _ => le_rfl⟩, rfl, rfl, fun r isR => ?_⟩
              · dsimp only
                rw [Function.update_of_ne, h]
                rintro rfl
                rw [new] at h
                cases h
              · rcases held with ⟨v, isReg⟩ | ⟨k, isReg⟩ | ⟨k, isReg⟩
                · exact .inl (.inl ⟨v, isReg⟩)
                · dsimp only at isReg
                  rw [Function.update_apply] at isReg
                  split at isReg
                  · cases isReg
                    exact .inr ⟨le_rfl, Nat.lt_succ_self _⟩
                  · exact .inl (.inr (.inl ⟨k, isReg⟩))
                · exact .inl (.inr (.inr ⟨k, isReg⟩))
              · cases isR
                refine ⟨.inr (.inl ⟨_, Function.update_self ..⟩), fun c' later ρ ready => ?_⟩
                exact ready.loop l value _ (later.loop.trans isLoop)
                  (later.loopShared _ _ (Function.update_self ..))

theorem constToReg_spec (value gateOn : Int) :
    ∃ shared c₁, constToReg value gateOn c = some (shared, c₁) ∧
      SharesConst P F val c₀ c c₁ value shared := by
  unfold constToReg
  split
  · exact ⟨_, _, rfl, .none c value⟩
  · split
    · next shared isShared =>
        refine ⟨_, _, rfl, .refl c, rfl, rfl, fun r isR => ?_⟩
        cases isR
        refine ⟨.inr (.inr ⟨_, isShared⟩), fun c' later ρ ready => ?_⟩
        exact ready.block value shared (later.blockShared _ _ isShared)
    · next new =>
        refine ⟨_, _, rfl, ⟨Nat.le_succ _, rfl, fun _ _ h => h, fun _ _ h => h, fun k r h => ?_,
          fun r held => ?_, fun _ => le_rfl⟩, rfl, rfl, fun r isR => ?_⟩
        · dsimp only
          rw [Function.update_of_ne, h]
          rintro rfl
          rw [new] at h
          cases h
        · rcases held with ⟨v, isReg⟩ | ⟨k, isReg⟩ | ⟨k, isReg⟩
          · exact .inl (.inl ⟨v, isReg⟩)
          · exact .inl (.inr (.inl ⟨k, isReg⟩))
          · dsimp only at isReg
            rw [Function.update_apply] at isReg
            split at isReg
            · cases isReg
              exact .inr ⟨le_rfl, Nat.lt_succ_self _⟩
            · exact .inl (.inr (.inr ⟨k, isReg⟩))
        · cases isR
          refine ⟨.inr (.inr ⟨_, Function.update_self ..⟩), fun c' later ρ ready => ?_⟩
          exact ready.block value _ (later.blockShared _ _ (Function.update_self ..))

theorem sharedConst_spec (value gateOn : Int) :
    ∃ shared c₁, sharedConst value gateOn c = some (shared, c₁) ∧
      SharesConst P F val c₀ c c₁ value shared := by
  obtain ⟨shared, c₁, run, spec⟩ : ∃ shared c₁, loopConstToReg value gateOn c = some (shared, c₁) ∧
      SharesConst P F val c₀ c c₁ value shared := loopConstToReg_spec value gateOn
  have first : sharedConst value gateOn c =
      (shared.elim (constToReg value gateOn) fun shared => pure (some shared)) c₁ := by
    unfold sharedConst
    show (loopConstToReg value gateOn c).bind _ = _
    rw [run]
    cases shared <;> rfl
  rw [first]
  cases shared with
  | some shared => exact ⟨_, _, rfl, spec⟩
  | none =>
    obtain ⟨shared, c₂, run, spec'⟩ : ∃ shared c₂,
      constToReg value gateOn c₁ = some (shared, c₂) ∧
        SharesConst P F val c₀ c₁ c₂ value shared :=
      constToReg_spec value gateOn
    exact ⟨shared, c₂, run, spec.grows.trans spec'.grows, spec'.sunk.trans spec.sunk,
      spec'.same.trans spec.same, spec'.reg⟩

/-! ## Operands -/

theorem valueReg_spec (x : Inst) :
    ∃ r c₁, valueReg .int32 x c = some (r, c₁) ∧ Grows c c₁ ∧ c₁.instSunk = c.instSunk ∧
      c₁.irInst = c.irInst ∧ c₁.regMap x = some r ∧ c₁.valueLoweredUse = c.valueLoweredUse := by
  unfold valueReg
  split
  · next r isReg => exact ⟨r, c, rfl, .refl c, rfl, rfl, isReg, rfl⟩
  · next new =>
      refine ⟨⟨c.nextVreg, .int⟩, _, rfl, ⟨Nat.le_succ _, rfl, fun v r h => ?_, fun _ _ h => h,
        fun _ _ h => h, fun r held => ?_, fun _ => le_rfl⟩, rfl, rfl, Function.update_self .., rfl⟩
      · dsimp only
        rw [Function.update_of_ne]
        · exact h
        · rintro rfl
          rw [new] at h
          cases h
      · rcases held with ⟨v, isReg⟩ | ⟨k, isReg⟩ | ⟨k, isReg⟩
        · dsimp only at isReg
          rw [Function.update_apply] at isReg
          split at isReg
          · cases isReg
            exact .inr ⟨le_rfl, Nat.lt_succ_self _⟩
          · exact .inl (.inl ⟨v, isReg⟩)
        · exact .inl (.inr (.inl ⟨k, isReg⟩))
        · exact .inl (.inr (.inr ⟨k, isReg⟩))

/-- The register of an operand, once it has been counted: as it is, or anew. -/
theorem fetch_rematerialized {x : Inst} {kind : InstKind} (operand : I32Operand P F val x)
    (isKind : kindIn P F x = some kind) (numbered : c.Numbered)
    (counted : c₀.valueLoweredUse x < c.valueLoweredUse x) :
    ∃ r c₁, (valueReg .int32 x >>= rematerializeIfNeeded .int32 kind x) c = some (r, c₁) ∧
      Fetches P F val c₀ c c₁ r (val x) := by
  obtain ⟨reg, c₁, run, grows, sunk, same, isReg, uses⟩ := valueReg_spec x
  have first : (valueReg .int32 x >>= rematerializeIfNeeded .int32 kind x) c =
      rematerializeIfNeeded .int32 kind x reg c₁ := by
    show (valueReg .int32 x c).bind _ = _
    rw [run]
    rfl
  have numbered' := grows.numbered numbered
  have here : kindIn P F x = some kind := isKind
  rw [first]
  obtain ⟨kind', isData, notFloat, notGlobal⟩ := operand.data
  have isKind' : kind' = kind := by
    rw [kindIn, isData] at isKind
    exact Option.some.inj isKind
  subst isKind'
  have asItIs (stays : isRematerialized kind' = false) :
      Fetches P F val c₀ c c₁ reg (val x) := by
    refine .still grows sunk numbered (.inl ⟨x, isReg⟩) same fun c' later ρ ready => ?_
    refine ready.value x kind' reg (counted.trans_le ?_) here stays (later.regMap _ _ isReg)
    rw [← uses]
    exact later.uses x
  cases kind' with
  | float bits => exact absurd rfl (notFloat bits)
  | globalAlloc init => exact absurd rfl (notGlobal init)
  | integer value =>
    refine ⟨_, _, rfl, .after grows sunk same ?_⟩
    rw [operand.integer value here]
    have word : (value.setWidth 64).setWidth 32 = value := by
      rw [BitVec.setWidth_setWidth_of_le value (by decide), BitVec.setWidth_eq]
    have fetches : Fetches P F val c₀ c₁ (c₁.loaded (value.setWidth 64)) ⟨c₁.nextVreg, .int⟩
        ((value.setWidth 64).setWidth 32) := fetches_loaded numbered' _
    rwa [word] at fetches
  | undef =>
    refine ⟨_, _, rfl, .after grows sunk same ?_⟩
    rw [operand.undef here]
    exact fetches_loaded numbered' 0
  | _ => exact ⟨reg, c₁, rfl, asItIs rfl⟩

theorem countUse_spec {x : Inst} (unsunk : x ∉ c.instSunk) :
    ∃ c₁, countUse x c = some ((), c₁) ∧ Grows c c₁ ∧ c₁.instSunk = c.instSunk ∧
      c₁.irInst = c.irInst ∧ c.valueLoweredUse x < c₁.valueLoweredUse x := by
  refine ⟨_, if_neg unsunk, ⟨le_rfl, rfl, fun _ _ h => h, fun _ _ h => h, fun _ _ h => h,
    fun r held => .inl held, fun v => ?_⟩, rfl, rfl, ?_⟩
  · dsimp only
    rw [Function.update_apply]
    split
    · next same => rw [same]; exact Nat.le_succ _
    · exact le_rfl
  · dsimp only
    rw [Function.update_self]
    exact Nat.lt_succ_self _

theorem putValueInReg_spec {x : Inst} (operand : I32Operand P F val x) (unsunk : x ∉ c.instSunk)
    (numbered : c.Numbered) (since : Grows c₀ c) :
    ∃ r c₁, putValueInReg P F x c = some (r, c₁) ∧ Fetches P F val c₀ c c₁ r (val x) := by
  obtain ⟨c₁, count, grows, sunk, same, counted⟩ := countUse_spec unsunk
  obtain ⟨kind, isData, -, -⟩ := operand.data
  have isKind : kindIn P F x = some kind := by rw [kindIn, isData]; rfl
  have numbered' := grows.numbered numbered
  have counted' : c₀.valueLoweredUse x < c₁.valueLoweredUse x := (since.uses x).trans_lt counted
  have lift (c : LowerContext) : (StateT.lift (P.instData F x) : LowerM InstData) c =
      some (⟨.int32, kind⟩, c) := by
    rw [isData]
    rfl
  by_cases isInteger : ∃ value, kind = .integer value
  · obtain ⟨value, rfl⟩ := isInteger
    obtain ⟨shared, c₂, share, spec⟩ : ∃ shared c₂,
        sharedConst value.toInt value.toInt c₁ = some (shared, c₂) ∧
          SharesConst P F val c₀ c₁ c₂ value.toInt shared := sharedConst_spec _ _
    have run : putValueInReg P F x c = (shared.elim
        (valueReg .int32 x >>= rematerializeIfNeeded .int32 (.integer value) x) pure) c₂ := by
      unfold putValueInReg
      show (countUse x c).bind _ = _
      rw [count]
      show ((StateT.lift (P.instData F x) : LowerM InstData) c₁).bind _ = _
      rw [lift]
      show (sharedConst value.toInt value.toInt c₁).bind _ = _
      rw [share]
      cases shared <;> rfl
    have word : BitVec.ofInt 32 value.toInt = val x := by
      rw [operand.integer value isKind, BitVec.ofInt_toInt]
    rw [run]
    cases shared with
    | some r =>
      refine ⟨r, c₂, rfl, .after grows sunk same ?_⟩
      obtain ⟨held, holds⟩ := spec.reg r rfl
      rw [← word]
      exact .still spec.grows spec.sunk numbered' held spec.same holds
    | none =>
      obtain ⟨r, c₃, run, fetches⟩ := fetch_rematerialized operand isKind
        (spec.grows.numbered numbered') (counted'.trans_le (spec.grows.uses x))
      exact ⟨r, c₃, run, .after grows sunk same (.after spec.grows spec.sunk spec.same fetches)⟩
  · have noKey : constantKey kind = none := by
      cases kind with
      | integer value => exact absurd ⟨value, rfl⟩ isInteger
      | _ => rfl
    have run : putValueInReg P F x c =
        (valueReg .int32 x >>= rematerializeIfNeeded .int32 kind x) c₁ := by
      unfold putValueInReg
      show (countUse x c).bind _ = _
      rw [count]
      show ((StateT.lift (P.instData F x) : LowerM InstData) c₁).bind _ = _
      rw [lift]
      simp only [Option.bind_some, noKey]
      rfl
    rw [run]
    obtain ⟨r, c₂, run, fetches⟩ := fetch_rematerialized operand isKind numbered'
      counted'
    exact ⟨r, c₂, run, .after grows sunk same fetches⟩

/-! ## Selection -/

variable (P F val) in
/-- The selection comes back with a register, and its code leaves the word there. -/
def Selects (c₀ c : LowerContext) (m : LowerM Reg) (known : List (Reg × BitVec 32))
    (word : BitVec 32) : Prop :=
  ∃ r c' code, m c = some (r, c') ∧ Grows c c' ∧ c'.irInst = c.irInst ++ code ∧
    (∀ i ∈ code, Encodable i) ∧
    ∀ s : ArithState, Ready P F val c₀ c' s.regs →
      (∀ k ∈ known, (s.regs k.1).read .size32 = k.2) →
      ∃ s', execCode s code = some s' ∧ (s'.regs r).read .size32 = word

/-- What is known is about registers with a number. -/
def AllBelow (c : LowerContext) (known : List (Reg × BitVec 32)) : Prop :=
  ∀ k ∈ known, k.1.vreg < c.nextVreg

/-- A fetched word is known to what follows. -/
theorem Selects.fetch {m : LowerM Reg} {f : Reg → LowerM Reg} {x word : BitVec 32}
    (run : m c = some (r, c₁)) (fetches : Fetches P F val c₀ c c₁ r x) (allBelow : AllBelow c known)
    (next : Selects P F val c₀ c₁ (f r) ((r, x) :: known) word) :
    Selects P F val c₀ c (m >>= f) known word := by
  obtain ⟨code, emitted, encodable, runs⟩ := fetches.runs
  obtain ⟨r', c', code', run', grows, emitted', encodable', runs'⟩ := next
  refine ⟨r', c', code ++ code', ?_, fetches.grows.trans grows, ?_, ?_, fun s ready holds => ?_⟩
  · show (m c).bind _ = _
    rw [run]
    exact run'
  · rw [emitted', emitted, List.append_assoc]
  · intro i member
    exact (List.mem_append.mp member).elim (encodable i) (encodable' i)
  · obtain ⟨s₁, run₁, old, held, isX⟩ := runs c' grows s ready
    have holds₁ : ∀ k ∈ (r, x) :: known, (s₁.regs k.1).read .size32 = k.2 := by
      intro k member
      rcases List.mem_cons.mp member with rfl | before
      · exact isX
      · rw [old k.1 (allBelow k before)]
        exact holds k before
    obtain ⟨s', run', result⟩ := runs' s₁ (ready.congr held) holds₁
    refine ⟨s', ?_, result⟩
    rw [execCode_append _ run₁]
    exact run'

/-- Where a selection stands: after `c₀`, with something known. -/
structure Here (c₀ c : LowerContext) (known : List (Reg × BitVec 32)) : Prop where
  numbered : c.Numbered
  since : Grows c₀ c
  allBelow : AllBelow c known

theorem Here.fetched {x : BitVec 32} (here : Here c₀ c known)
    (fetches : Fetches P F val c₀ c c₁ r x) : Here c₀ c₁ ((r, x) :: known) where
  numbered := fetches.grows.numbered here.numbered
  since := here.since.trans fetches.grows
  allBelow k member := by
    rcases List.mem_cons.mp member with rfl | before
    · exact fetches.below
    · exact (here.allBelow k before).trans_le fetches.grows.vreg

/-- An operand is put in a register. -/
theorem Selects.put {f : Reg → LowerM Reg} {x : Inst} (operand : I32Operand P F val x)
    (unsunk : x ∉ c.instSunk) (here : Here c₀ c known)
    (next : ∀ r c₁, Here c₀ c₁ ((r, val x) :: known) → c₁.instSunk = c.instSunk →
    Selects P F val c₀ c₁ (f r) ((r, val x) :: known) word) :
    Selects P F val c₀ c (putValueInReg P F x >>= f) known word := by
  obtain ⟨r, c₁, run, fetches⟩ := putValueInReg_spec operand unsunk here.numbered here.since
  exact .fetch run fetches here.allBelow (next r c₁ (here.fetched fetches) fetches.sunk)

/-- Growing first, without code. -/
theorem Selects.after {m m' : LowerM Reg} (grows : Grows c c₁) (same : c₁.irInst = c.irInst)
    (run : m c = m' c₁) (selects : Selects P F val c₀ c₁ m' known word) :
    Selects P F val c₀ c m known word := by
  obtain ⟨r, c', code, run', grows', emitted, rest⟩ := selects
  exact ⟨r, c', code, run.trans run', grows.trans grows', by rw [emitted, same], rest⟩

/-- A step that grows the context without code. -/
theorem Selects.step {α : Type} {m : LowerM α} {f : α → LowerM Reg} {a : α}
    {known : List (Reg × BitVec 32)} (run : m c = some (a, c₁)) (grows : Grows c c₁)
    (same : c₁.irInst = c.irInst) (next : Selects P F val c₀ c₁ (f a) known word) :
    Selects P F val c₀ c (m >>= f) known word := by
  refine .after grows same ?_ next
  show (m c).bind _ = _
  rw [run]
  rfl

/-- The context after a producer has been sunk. -/
def LowerContext.sink (c : LowerContext) (producer : Inst) : LowerContext :=
  { c with instSunk := producer :: c.instSunk }

theorem LowerContext.grows_sink (c : LowerContext) (producer : Inst) : Grows c (c.sink producer) :=
  .of_same le_rfl rfl rfl rfl rfl rfl

theorem Here.sink (here : Here c₀ c known) (producer : Inst) : Here c₀ (c.sink producer) known where
  numbered := here.numbered
  since := here.since.trans (c.grows_sink producer)
  allBelow := here.allBelow

theorem sinkPureSingleUseProducer_eq (c : LowerContext) (producer consumer : Inst) :
    sinkPureSingleUseProducer P F producer consumer c =
      if canSinkPureSingleUseProducer P F c producer consumer consumer then
        some (true, c.sink producer)
      else some (false, c) := rfl

/-- The last instruction writes the result. -/
theorem Selects.emit {i : ArithInst} (encodable : Encodable i)
    (exec : ∀ s : ArithState, (∀ k ∈ known, (s.regs k.1).read .size32 = k.2) →
    ∃ w, i.exec s = some (s.set r w) ∧ w.read .size32 = word) :
    Selects P F val c₀ c (LowerContext.emit i >>= fun _ => pure r) known word := by
  refine ⟨r, { c with irInst := c.irInst ++ [i] }, [i], rfl, .of_same le_rfl rfl rfl rfl rfl rfl,
    rfl, fun j member => ?_, fun s _ holds => ?_⟩
  · rw [List.mem_singleton.mp member]
    exact encodable
  · obtain ⟨w, run, isWord⟩ := exec s holds
    refine ⟨s.set r w, ?_, by rw [ArithState.set_self, isWord]⟩
    rw [execCode_cons, run]
    rfl

/-- The result is in a register already. -/
theorem Selects.pure {known : List (Reg × BitVec 32)} (isKnown : (r, word) ∈ known) :
    Selects P F val c₀ c (Pure.pure r) known word :=
  ⟨r, c, [], rfl, .refl c, (List.append_nil _).symm, fun _ member => absurd member List.not_mem_nil,
    fun s _ holds => ⟨s, rfl, holds _ isKnown⟩⟩

section Code

variable {α : Type} {m : LowerM α} {f : α → LowerM Reg} {x : α} {known : List (Reg × BitVec 32)}
  {n : Nat} {code : List ArithInst}

/-- The context after some registers were made and some code was emitted. -/
def LowerContext.emitted (c : LowerContext) (n : Nat) (code : List ArithInst) : LowerContext :=
  { c with nextVreg := c.nextVreg + n, irInst := c.irInst ++ code }

theorem LowerContext.grows_emitted (c : LowerContext) (n : Nat) (code : List ArithInst) :
    Grows c (c.emitted n code) :=
  .of_same (Nat.le_add_right ..) rfl rfl rfl rfl rfl

variable (n code) in
/-- Code that ends the selection. -/
theorem Selects.ofCode (run : m c = some (x, c.emitted n code)) (done : f x = Pure.pure r)
    (encodable : ∀ i ∈ code, Encodable i)
    (exec : ∀ s : ArithState, (∀ k ∈ known, (s.regs k.1).read .size32 = k.2) →
      ∃ s', execCode s code = some s' ∧ (s'.regs r).read .size32 = word) :
    Selects P F val c₀ c (m >>= f) known word := by
  refine ⟨r, c.emitted n code, code, ?_, c.grows_emitted n code, rfl, encodable, fun s _ => exec s⟩
  show (m c).bind _ = _
  rw [run]
  show f x _ = _
  rw [done]
  rfl

variable (n code) in
/-- Code that writes new registers, and one of them with a word that is used later. -/
theorem Selects.chunk {y : BitVec 32} (here : Here c₀ c known)
    (run : m c = some (x, c.emitted n code))
    (below : r.vreg < c.nextVreg + n) (encodable : ∀ i ∈ code, Encodable i)
    (exec : ∀ s : ArithState, (∀ k ∈ known, (s.regs k.1).read .size32 = k.2) →
      ∃ s', execCode s code = some s' ∧ (s'.regs r).read .size32 = y ∧
        ∀ q, q.vreg < c.nextVreg ∨ c.nextVreg + n ≤ q.vreg → s'.regs q = s.regs q)
    (next : ∀ c₁, Here c₀ c₁ ((r, y) :: known) → c₁.instSunk = c.instSunk →
      Selects P F val c₀ c₁ (f x) ((r, y) :: known) word) :
    Selects P F val c₀ c (m >>= f) known word := by
  have grows := c.grows_emitted n code
  have here' : Here c₀ (c.emitted n code) ((r, y) :: known) := by
    refine ⟨grows.numbered here.numbered, here.since.trans grows, fun k member => ?_⟩
    rcases List.mem_cons.mp member with rfl | before
    · exact below
    · exact (here.allBelow k before).trans_le grows.vreg
  obtain ⟨r', c', code', run', grows', emitted, encodable', runs⟩ := next _ here' rfl
  refine ⟨r', c', code ++ code', ?_, grows.trans grows', ?_, ?_, fun s ready holds => ?_⟩
  · show (m c).bind _ = _
    rw [run]
    exact run'
  · rw [emitted]
    exact List.append_assoc ..
  · intro i member
    exact (List.mem_append.mp member).elim (encodable i) (encodable' i)
  · obtain ⟨s₁, run₁, isY, old⟩ := exec s holds
    have held : ∀ q, c'.Holding q → s₁.regs q = s.regs q := by
      intro q held
      rcases grows'.holding q held with before | new
      · exact old q (.inl (here.numbered q before))
      · exact old q (.inr new.1)
    have holds₁ : ∀ k ∈ (r, y) :: known, (s₁.regs k.1).read .size32 = k.2 := by
      intro k member
      rcases List.mem_cons.mp member with rfl | before
      · exact isY
      · rw [old k.1 (.inl (here.allBelow k before))]
        exact holds k before
    obtain ⟨s', run', result⟩ := runs s₁ (ready.congr held) holds₁
    refine ⟨s', ?_, result⟩
    rw [execCode_append _ run₁]
    exact run'

end Code

end Spec

end AnonCompiler.Mir
