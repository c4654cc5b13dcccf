import AnonCompiler.Lib.Word
import AnonCompiler.Opt.SummarySupport

/-!
# Supported values are not negative

The values an activation has computed for the members of a supported set are
not negative, provided the seeds are not: every step of the activation keeps
that.  The invariant says a little more, for the halving chain
`sar(add(x, shr(y, 31)), 1)`: a shift by 31 leaves one bit, and the sum of such
a bit and a non-negative value is non-negative or the least word.  And it says
that a comparison `x < 0` with a member comes out false.
-/

set_option autoImplicit false

namespace AnonCompiler.Opt.ReturnSummary

open Ir Lib

/-- Not a negative `i32`; nothing is said of values of other types. -/
def Nonneg (v : Val) : Prop := ∀ x, v = .int x → 0 ≤ x.toInt

variable {x : BitVec 32} {floats : FloatOps} {ty : Ty} {lhs : Val}

theorem Nonneg.of_int (h : 0 ≤ x.toInt) : Nonneg (.int x) := by
  intro y same
  cases same
  exact h

theorem Nonneg.fit {v : Val} (h : Nonneg v) (ty : Ty) : Nonneg (v.fit ty) :=
  fun x same => h x (Val.fit_eq_int same)

theorem nonneg_zeroVal (ty : Ty) : Nonneg (zeroVal ty) := by
  intro x same
  cases ty <;> simp only [zeroVal, reduceCtorEq, Val.int.injEq] at same
  subst same
  decide

theorem binaryVal_eq_int {op : BinaryOp} {rhs : Val} (arithmetic : op.isCompare = false)
    (h : binaryVal floats ty op lhs rhs = some (.int x)) :
    ∃ a b, lhs = .int a ∧ rhs = .int b ∧ foldBinary op a b = some x := by
  unfold binaryVal at h
  split at h
  · next a b =>
      obtain ⟨y, folded, same⟩ := Option.map_eq_some_iff.mp h
      cases same
      exact ⟨a, b, rfl, rfl, folded⟩
  · simp [arithmetic] at h
  · split at h
    · split at h
      · obtain ⟨lanes, -, same⟩ := Option.map_eq_some_iff.mp h
        cases same
      · split at h <;> cases h
    · split at h <;> cases h
  · split at h <;> cases h

/-- A value that is not negative is not less than zero. -/
theorem lt_zero_eq {c : BitVec 32} (h : Nonneg lhs)
    (compared : binaryVal floats ty .lt lhs (.int 0) = some (.int c)) : c = 0 := by
  cases lhs with
  | int a =>
    have : ¬ a.toInt < (0 : BitVec 32).toInt := Int.not_lt.mpr (h a rfl)
    rw [binaryVal_int, foldBinary, Option.map_some, BitVec.slt_eq_decide,
      decide_eq_false this] at compared
    cases compared
    rfl
  | _ => simp [binaryVal, BinaryOp.divides] at compared

/-- The values computed so far for the members of `D`, for the parts of a
halving chain and for the guards. -/
structure Sound (P : Program) (F : FunctionData) (D : Inst → Bool) (env : Env) : Prop where
  member : ∀ {inst v}, D inst = true → env inst = some v → Nonneg v
  bit : ∀ {inst x}, shrIs P F inst = true → env inst = some (.int x) → x.toNat ≤ 1
  halving : ∀ {inst base x}, halvingBase P F inst = some base → D base = true →
    env inst = some (.int x) → 0 ≤ x.toInt ∨ x = BitVec.intMin 32
  guard : ∀ {inst lhs rhs c}, kindIn P F inst = some (.binary .lt lhs rhs) →
    isInteger P F 0 rhs = true → D lhs = true → env inst = some (.int c) → c = 0

/-- A supported set whose seeds are parameters of the function. -/
structure Basis (P : Program) (F : FunctionData) (entry : BasicBlock) (seeds : Inst → Prop)
    (nonneg : List Function) (D : Inst → Bool) : Prop where
  wellFormed : F.WellFormed
  isEntry : F.entryBlock = some entry
  seed : ∀ {inst}, seeds inst → inst ∈ F.blockParams entry
  supported : Supported P F seeds nonneg D

section Step

variable {World : Type} {S : Setting World} {F : FunctionData} {entry : BasicBlock}
  {seeds : Inst → Prop} {nonneg : List Function} {D : Inst → Bool} {env : Env}

variable {inst base lhs rhs : Inst} {data : InstData} {x : BitVec 32} {bb : BasicBlock}

/-- A member that is no parameter is there by a rule. -/
theorem Basis.rule (basis : Basis S.program F entry seeds nonneg D)
    (found : S.program.instData F inst = some data)
    (notParam : ∀ index, data.kind ≠ .blockArgRef index) (member : D inst = true) :
    kindRule S.program F nonneg D data.kind = true := by
  have noBlock : ∀ bb, inst ∉ F.blockParams bb := by
    intro bb isParam
    obtain ⟨data', index, found', isRef⟩ := basis.wellFormed.blockParam isParam
    have same := (basis.wellFormed.instData_eq (P := S.program) found').symm.trans found
    exact notParam index (Option.some.inj same ▸ isRef)
  rcases basis.supported inst member with seed | rule | ⟨bb, position, isParam, -⟩
  · exact absurd (basis.seed seed) (noBlock entry)
  · simpa [ruleHolds, kindIn, found] using rule
  · exact absurd (List.mem_of_getElem? isParam) (noBlock bb)

/-- The operands of a rule are not negative. -/
theorem Sound.operand (sound : Sound S.program F D env)
    (basis : Basis S.program F entry seeds nonneg D) {inst : Inst} {v : Val}
    (member : D inst = true) (h : S.ctx.operand F env inst = some v) : Nonneg v := by
  unfold Ctx.operand at h
  split at h
  · cases h
  · next data found =>
      split at h
      · next isConst =>
          have rule :=
            basis.rule found (fun index isRef => by simp [isRef, Ctx.isConst] at isConst) member
          obtain ⟨ty, kind⟩ := data
          cases kind with
          | integer value =>
            simp only [Ctx.constVal, Option.some.injEq] at h
            subst h
            exact .of_int (of_decide_eq_true rule)
          | zeroInit =>
            simp only [Ctx.constVal, Option.some.injEq] at h
            subst h
            exact nonneg_zeroVal ty
          | undef | float _ | globalAlloc _ | aggregate _ => exact absurd rule Bool.false_ne_true
          | _ => exact absurd isConst Bool.false_ne_true
      · exact sound.member member h

/-- An operand that is not a constant comes from the environment. -/
theorem operand_eq_env (found : S.program.instData F inst = some data)
    (computed : Ctx.isConst data.kind = false) : S.ctx.operand F env inst = env inst := by
  have found' : S.ctx.instData F inst = some data := found
  simp [Ctx.operand, found', computed]

theorem kindIn_eq_some {kind : InstKind} (h : kindIn S.program F inst = some kind) :
    ∃ ty, S.program.instData F inst = some ⟨ty, kind⟩ := by
  obtain ⟨data, found, rfl⟩ := Option.map_eq_some_iff.mp h
  exact ⟨data.ty, found⟩

/-- The value of an integer constant. -/
theorem operand_integer {value : BitVec 32} (h : isInteger S.program F value inst = true) :
    S.ctx.operand F env inst = some (.int value) := by
  obtain ⟨ty, found⟩ := kindIn_eq_some (of_decide_eq_true h)
  have found' : S.ctx.instData F inst = some ⟨ty, .integer value⟩ := found
  simp [Ctx.operand, found', Ctx.isConst, Ctx.constVal]

theorem shrIs_eq (h : shrIs S.program F inst = true) :
    ∃ lhs rhs, kindIn S.program F inst = some (.binary .shr lhs rhs) ∧
      isInteger S.program F 31 rhs = true := by
  unfold shrIs at h
  split at h
  · next lhs rhs kind => exact ⟨lhs, rhs, kind, h⟩
  · cases h

theorem halvingBase_eq (h : halvingBase S.program F inst = some base) :
    ∃ lhs rhs, kindIn S.program F inst = some (.binary .add lhs rhs) ∧
      (base = lhs ∧ shrIs S.program F rhs = true ∨ base = rhs ∧ shrIs S.program F lhs = true) := by
  unfold halvingBase at h
  split at h
  · next lhs rhs kind =>
      refine ⟨lhs, rhs, kind, ?_⟩
      split at h
      · next isShr => exact .inl ⟨(Option.some.inj h).symm, isShr⟩
      · split at h
        · next isShr => exact .inr ⟨(Option.some.inj h).symm, isShr⟩
        · cases h
  · cases h

theorem Sound.shr_operand (sound : Sound S.program F D env) (isShr : shrIs S.program F inst = true)
    (h : S.ctx.operand F env inst = some (.int x)) : x.toNat ≤ 1 := by
  obtain ⟨lhs, rhs, kind, -⟩ := shrIs_eq isShr
  obtain ⟨ty, found⟩ := kindIn_eq_some kind
  rw [operand_eq_env found rfl] at h
  exact sound.bit isShr h

/-- The sum of a non-negative value and a bit. -/
theorem Sound.halving_sum (sound : Sound S.program F D env)
    (basis : Basis S.program F entry seeds nonneg D) {a b : BitVec 32}
    (parts : base = lhs ∧ shrIs S.program F rhs = true ∨ base = rhs ∧ shrIs S.program F lhs = true)
    (member : D base = true) (left : S.ctx.operand F env lhs = some (.int a))
    (right : S.ctx.operand F env rhs = some (.int b)) :
    0 ≤ (a + b).toInt ∨ a + b = BitVec.intMin 32 := by
  rcases parts with ⟨rfl, isShr⟩ | ⟨rfl, isShr⟩
  · exact Word.nonneg_add_bit (sound.operand basis member left a rfl)
      (sound.shr_operand isShr right)
  · rw [BitVec.add_comm]
    exact Word.nonneg_add_bit (sound.operand basis member right b rfl)
      (sound.shr_operand isShr left)

/-- The operands of an arithmetic instruction with an `i32` result. -/
theorem pureVal_binary {ty : Ty} {op : BinaryOp} (arithmetic : op.isCompare = false)
    (h : S.ctx.pureVal F env ⟨ty, .binary op lhs rhs⟩ = some (.int x)) :
    ∃ a b, S.ctx.operand F env lhs = some (.int a) ∧ S.ctx.operand F env rhs = some (.int b) ∧
      foldBinary op a b = some x := by
  simp only [Ctx.pureVal, Option.bind_eq_bind, Option.bind_eq_some_iff] at h
  obtain ⟨l, left, r, right, computed⟩ := h
  obtain ⟨a, b, rfl, rfl, folded⟩ := binaryVal_eq_int arithmetic computed
  exact ⟨a, b, left, right, folded⟩

/-- No halving chain is executed on the least word. -/
def ChainOk (P : Program) (F : FunctionData) (env : Env) (inst : Inst) : Prop :=
  ∀ lhs rhs base, F.kind inst = some (.binary .sar lhs rhs) → isInteger P F 1 rhs = true →
    halvingBase P F lhs = some base → env lhs ≠ some (.int (BitVec.intMin 32))

section

variable (sound : Sound S.program F D env)
include sound

theorem Sound.sar_operand (basis : Basis S.program F entry seeds nonneg D)
    (kind : F.kind inst = some (.binary .sar lhs rhs)) (chain : ChainOk S.program F env inst)
    (member : D (sarBase S.program F lhs rhs) = true) {a : BitVec 32}
    (left : S.ctx.operand F env lhs = some (.int a)) : 0 ≤ a.toInt := by
  unfold sarBase at member
  split at member
  · next isOne =>
      cases halved : halvingBase S.program F lhs with
      | none =>
        rw [halved, Option.getD_none] at member
        exact sound.operand basis member left a rfl
      | some base =>
        rw [halved, Option.getD_some] at member
        obtain ⟨l, r, isAdd, -⟩ := halvingBase_eq halved
        obtain ⟨ty, found⟩ := kindIn_eq_some isAdd
        rw [operand_eq_env found rfl] at left
        rcases sound.halving halved member left with nonneg | least
        · exact nonneg
        · exact absurd (least ▸ left) (chain lhs rhs base kind isOne halved)
  · exact sound.operand basis member left a rfl

/-- The arithmetic rules. -/
theorem Sound.binary (basis : Basis S.program F entry seeds nonneg D) {inst lhs rhs : Inst}
    {ty : Ty} {op : BinaryOp} (kind : F.kind inst = some (.binary op lhs rhs))
    (chain : ChainOk S.program F env inst) (rule : binaryRule S.program F D op lhs rhs = true)
    {x : BitVec 32} (h : S.ctx.pureVal F env ⟨ty, .binary op lhs rhs⟩ = some (.int x)) :
    0 ≤ x.toInt := by
  have arithmetic : op.isCompare = false := by
    cases op <;> first | rfl | exact absurd rule Bool.false_ne_true
  obtain ⟨a, b, left, right, folded⟩ := pureVal_binary arithmetic h
  cases op with
  | rem =>
    have := sound.operand basis rule left a rfl
    simp only [foldBinary] at folded
    split at folded
    · cases folded
    · obtain rfl := Option.some.inj folded
      exact Word.nonneg_srem this b
  | shr =>
    obtain rfl := Option.some.inj folded
    exact Word.nonneg_shr (sound.operand basis rule left a rfl) _
  | sar =>
    obtain rfl := Option.some.inj folded
    exact Word.nonneg_sar (sound.sar_operand basis kind chain rule left) _
  | and =>
    obtain rfl := Option.some.inj folded
    exact Word.nonneg_and (sound.operand basis (Bool.and_eq_true_iff.mp rule).1 left a rfl) b
  | div =>
    obtain ⟨member, positive⟩ := Bool.and_eq_true_iff.mp rule
    have nonneg := sound.operand basis member left a rfl
    unfold positiveInteger at positive
    split at positive
    · next value isInteger =>
        have same : S.ctx.operand F env rhs = some (.int value) :=
          operand_integer (decide_eq_true isInteger)
        cases same.symm.trans right
        simp only [foldBinary] at folded
        split at folded
        · cases folded
        · obtain rfl := Option.some.inj folded
          exact Word.nonneg_sdiv nonneg (of_decide_eq_true positive)
    · cases positive
  | _ => exact absurd rule Bool.false_ne_true

/-- A new value keeps the invariant, when it is what the invariant says of its
instruction. -/
theorem Sound.define {v : Val} (member : D inst = true → Nonneg v)
    (bit : ∀ x, shrIs S.program F inst = true → v = .int x → x.toNat ≤ 1)
    (halving : ∀ base x, halvingBase S.program F inst = some base → D base = true →
      v = .int x → 0 ≤ x.toInt ∨ x = BitVec.intMin 32)
    (guard : ∀ lhs rhs c, kindIn S.program F inst = some (.binary .lt lhs rhs) →
      isInteger S.program F 0 rhs = true → D lhs = true → v = .int c → c = 0) :
    Sound S.program F D (Function.update env inst (some v)) := by
  refine ⟨fun {i w} inD h => ?_, fun {i x} isShr h => ?_, fun {i base x} isSum inD h => ?_,
    fun {i lhs rhs c} isLt isZero inD h => ?_⟩ <;> by_cases here : i = inst
  · subst here
    rw [Function.update_self] at h
    exact Option.some.inj h ▸ member inD
  · rw [Function.update_of_ne here] at h
    exact sound.member inD h
  · subst here
    rw [Function.update_self] at h
    exact bit x isShr (Option.some.inj h)
  · rw [Function.update_of_ne here] at h
    exact sound.bit isShr h
  · subst here
    rw [Function.update_self] at h
    exact halving base x isSum inD (Option.some.inj h)
  · rw [Function.update_of_ne here] at h
    exact sound.halving isSum inD h
  · subst here
    rw [Function.update_self] at h
    exact guard lhs rhs c isLt isZero inD (Option.some.inj h)
  · rw [Function.update_of_ne here] at h
    exact sound.guard isLt isZero inD h

/-- The arithmetic a laid out instruction does, when its result is an `i32`. -/
theorem Sound.value (basis : Basis S.program F entry seeds nonneg D) {a : Activation} {m : Mem}
    {inst : Inst} {v : Val} (laidOut : inst ∈ F.layoutInsts)
    (chain : ChainOk S.program F a.env inst) (isEnv : a.env = env)
    (effect : exec S.ctx F a m inst = some (.value v)) :
    Sound S.program F D (Function.update env inst (some v)) := by
  subst isEnv
  obtain ⟨data, found, notParam⟩ := basis.wellFormed.laidOut laidOut
  have global := basis.wellFormed.instData_eq (P := S.program) found
  have kind : kindIn S.program F inst = some data.kind := by simp [kindIn, global]
  have localKind : F.kind inst = some data.kind := by simp [FunctionData.kind, found]
  -- a shift or a sum is computed by `pureVal`
  have ofBinary : ∀ {op lhs rhs x}, data.kind = .binary op lhs rhs → v = .int x →
      S.ctx.pureVal F a.env ⟨data.ty, .binary op lhs rhs⟩ = some (.int x) := by
    intro op lhs rhs x isBinary same
    obtain ⟨ty, k⟩ := data
    subst isBinary
    cases executes_of_exec found effect with
    | alloc isAlloc => cases isAlloc
    | load isLoad => cases isLoad
    | pure computed => rw [computed, Val.fit_eq_int same]
  refine sound.define (fun member => ?_) (fun x isShr same => ?_)
    (fun base x isSum member same => ?_) (fun lhs rhs c isLt isZero member same => ?_)
  · have rule := basis.rule global notParam member
    obtain ⟨ty, k⟩ := data
    cases k with
    | binary op lhs rhs =>
      exact fun x same => sound.binary basis localKind chain rule (ofBinary rfl same)
    | select cond ifTrue ifFalse =>
      obtain ⟨first, second⟩ := Bool.and_eq_true_iff.mp rule
      cases executes_of_exec found effect with
      | alloc isAlloc => cases isAlloc
      | load isLoad => cases isLoad
      | pure computed =>
        refine Nonneg.fit ?_ ty
        simp only [Ctx.pureVal, Option.bind_eq_bind, Option.bind_eq_some_iff,
          Option.some.injEq] at computed
        obtain ⟨c, -, t, isTrue, f, isFalse, rfl⟩ := computed
        unfold selectVal
        split
        · split
          · exact sound.operand basis first isTrue
          · exact sound.operand basis second isFalse
        · exact fun x same => by cases same
    | call | integer | zeroInit =>
      cases executes_of_exec found effect with
      | alloc isAlloc => cases isAlloc
      | load isLoad => cases isLoad
      | pure computed => cases computed
    | _ => exact absurd rule Bool.false_ne_true
  · obtain ⟨lhs, rhs, isBinary, amount⟩ := shrIs_eq isShr
    obtain ⟨l, r, -, right, folded⟩ :=
      pureVal_binary rfl (ofBinary (Option.some.inj (kind.symm.trans isBinary)) same)
    cases (operand_integer amount).symm.trans right
    obtain rfl := Option.some.inj folded
    exact Word.toNat_shr31_le l
  · obtain ⟨lhs, rhs, isBinary, parts⟩ := halvingBase_eq isSum
    obtain ⟨l, r, left, right, folded⟩ :=
      pureVal_binary rfl (ofBinary (Option.some.inj (kind.symm.trans isBinary)) same)
    obtain rfl := Option.some.inj folded
    exact sound.halving_sum basis parts member left right
  · have computed := ofBinary (Option.some.inj (kind.symm.trans isLt)) same
    simp only [Ctx.pureVal, Option.bind_eq_bind, Option.bind_eq_some_iff] at computed
    obtain ⟨l, left, r, right, compared⟩ := computed
    cases (operand_integer isZero).symm.trans right
    exact lt_zero_eq (sound.operand basis member left) compared

end

/-- Shifts and sums are no parameters. -/
theorem Sound.of_params {env' : Env} (basis : Basis S.program F entry seeds nonneg D)
    (sound : Sound S.program F D env)
    (others : ∀ {inst}, inst ∉ F.blockParams bb → env' inst = env inst)
    (params : ∀ {inst v}, inst ∈ F.blockParams bb → D inst = true → env' inst = some v → Nonneg v) :
    Sound S.program F D env' := by
  have computed : ∀ {inst op lhs rhs}, kindIn S.program F inst = some (.binary op lhs rhs) →
      inst ∉ F.blockParams bb := by
    intro inst op lhs rhs kind isParam
    obtain ⟨data, index, found, isRef⟩ := basis.wellFormed.blockParam isParam
    have same : some data.kind = some (.binary op lhs rhs) := by
      rw [← kind, kindIn, basis.wellFormed.instData_eq found, Option.map_some]
    cases isRef.symm.trans (Option.some.inj same)
  refine ⟨fun {i w} inD h => ?_, fun {i x} isShr h => ?_, fun {i base x} isSum inD h => ?_,
    fun {i lhs rhs c} isLt isZero inD h => ?_⟩
  · by_cases isParam : i ∈ F.blockParams bb
    · exact params isParam inD h
    · exact sound.member inD (others isParam ▸ h)
  · obtain ⟨lhs, rhs, kind, -⟩ := shrIs_eq isShr
    exact sound.bit isShr (others (computed kind) ▸ h)
  · obtain ⟨lhs, rhs, kind, -⟩ := halvingBase_eq isSum
    exact sound.halving isSum inD (others (computed kind) ▸ h)
  · exact sound.guard isLt isZero inD (others (computed isLt) ▸ h)

/-- A parameter that is a member is a seed, or receives members along every
edge. -/
theorem Basis.param (basis : Basis S.program F entry seeds nonneg D)
    (isParam : inst ∈ F.blockParams bb) (member : D inst = true) :
    seeds inst ∧ bb = entry ∨ bb ≠ entry ∧ ∃ position, (F.blockParams bb)[position]? = some inst ∧
      edgesProve F D bb position = true := by
  rcases basis.supported inst member with seed | rule | ⟨bb', position, isParam', edges⟩
  · exact .inl ⟨seed, basis.wellFormed.blockParams_unique isParam (basis.seed seed)⟩
  · obtain ⟨data, index, found, isRef⟩ := basis.wellFormed.blockParam isParam
    have : kindRule S.program F nonneg D data.kind = true := by
      simpa [ruleHolds, kindIn, basis.wellFormed.instData_eq found] using rule
    rw [isRef] at this
    exact absurd this Bool.false_ne_true
  · obtain rfl := basis.wellFormed.blockParams_unique isParam (List.mem_of_getElem? isParam')
    refine .inr ⟨?_, position, isParam', edges⟩
    rintro rfl
    simp [edgesProve, basis.isEntry] at edges

/-- Following an edge to another block than the entry keeps the invariant. -/
theorem Sound.goto (sound : Sound S.program F D env)
    (basis : Basis S.program F entry seeds nonneg D) {source : BasicBlock} {edge : LogicalEdge}
    (reached : source ∈ F.reachable) (leaves : edge ∈ F.outgoingEdges source)
    (notEntry : edge.target ≠ entry) {vals : List Val}
    (operands : S.ctx.operands F env edge.args = some vals)
    (same : vals.length = (F.blockParams edge.target).length) :
    Sound S.program F D (bindParams F env (F.blockParams edge.target) vals) := by
  refine sound.of_params basis (fun other => bindParams_of_notMem other) ?_
  intro inst v isParam member bound
  rcases basis.param isParam member with ⟨-, isEntry⟩ | ⟨-, position, at_, edges⟩
  · exact absurd isEntry notEntry
  · obtain ⟨arg, ty, isVal, rfl⟩ :=
      bindParams_getElem (basis.wellFormed.blockParams_nodup _) same at_ bound
    refine Nonneg.fit ?_ ty
    simp only [edgesProve, Bool.and_eq_true, List.all_eq_true] at edges
    obtain ⟨argInst, isArg, argMember⟩ :=
      Option.any_eq_true _ _ |>.mp (edges.2 edge (FunctionData.mem_incomingEdges reached leaves))
    refine sound.operand basis argMember ?_
    rw [← isVal, Ctx.operands_getElem operands, isArg, Option.bind_some]

/-- A new activation satisfies the invariant when the seeds do. -/
theorem Sound.start (basis : Basis S.program F entry seeds nonneg D) {vals : List Val}
    (seedsHold : ∀ {inst v}, seeds inst →
      bindParams F (fun _ => none) (F.blockParams entry) vals inst = some v → Nonneg v) :
    Sound S.program F D (bindParams F (fun _ => none) (F.blockParams entry) vals) := by
  have empty : Sound S.program F D (fun _ => none) := by
    refine ⟨?_, ?_, ?_, ?_⟩
    · intro inst v _ h
      cases h
    · intro inst x _ h
      cases h
    · intro inst base x _ _ h
      cases h
    · intro inst lhs rhs c _ _ _ h
      cases h
  refine empty.of_params basis (fun other => bindParams_of_notMem other) ?_
  intro inst v isParam member bound
  rcases basis.param isParam member with ⟨seed, -⟩ | ⟨notEntry, -⟩
  · exact seedsHold seed bound
  · exact absurd rfl notEntry

end Step

end AnonCompiler.Opt.ReturnSummary
