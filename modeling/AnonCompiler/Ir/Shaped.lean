import AnonCompiler.Ir.OpenRun

/-!
# Values of the shape of their types

The builders give constants, allocations and the arguments of jumps the types they are
used at.  Every value an activation holds then has the shape of its type, and an argument
reaches the parameter it is passed to unchanged.
-/

set_option autoImplicit false

namespace AnonCompiler.Ir

/-- The types the builders give and assert. -/
structure FunctionData.Shaped (P : Program) (F : FunctionData) : Prop where
  vector : ∀ {x data elem lanes}, P.instData F x = some data →
    data.ty = .vector elem lanes → elem.size = 4
  integer : ∀ {x ty value}, P.instData F x = some ⟨ty, .integer value⟩ → ty = .int32
  float : ∀ {x ty bits}, P.instData F x = some ⟨ty, .float bits⟩ → ty = .float32
  address : ∀ {x data}, P.instData F x = some data →
    data.kind = .alloc ∨ (∃ init, data.kind = .globalAlloc init) → data.ty.isPointer = true
  aggregate : ∀ {x ty value}, P.instData F x = some ⟨ty, .aggregate value⟩ →
    ∃ base, ty = .array base value.length ∧ ∀ elem ∈ value, P.typeOf F elem = some base
  edge : ∀ {bb e}, e ∈ F.outgoingEdges bb →
    e.args.map (P.typeOf F) = (F.blockParams e.target).map (P.typeOf F)

theorem wordsOf_length {count : Nat} {content : List MByte} {lanes : List (BitVec 32)}
    (h : wordsOf count content = some lanes) : lanes.length = count := by
  induction count generalizing content lanes with
  | zero =>
    cases content with
    | nil =>
      cases h
      rfl
    | cons _ _ => cases h
  | succ count ih =>
    simp only [wordsOf, Option.bind_eq_some_iff, Option.map_eq_some_iff] at h
    obtain ⟨first, -, rest, later, rfl⟩ := h
    rw [List.length_cons, ih later]

theorem decode_hasTy (ty : Ty) (content : List MByte) : (decode ty content).HasTy ty := by
  cases ty with
  | int32 => cases found : wordOf content <;> simp [decode, found, Val.HasTy]
  | float32 => cases found : wordOf content <;> simp [decode, found, Val.HasTy]
  | pointer base =>
    cases found : pointerOf content <;> simp [decode, found, Val.HasTy, Ty.isPointer]
  | vector elem lanes =>
    by_cases small : elem.size = 4
    · cases found : wordsOf lanes content with
      | none => simp [decode, found, Val.HasTy]
      | some words => simp [decode, found, Val.HasTy, small, wordsOf_length found]
    · simp [decode, small, Val.HasTy]
  | array base len =>
    by_cases whole : content.length = (Ty.array base len).size
    · rw [decode, if_pos whole]
      exact ⟨base, len, rfl, whole⟩
    · rw [decode, if_neg whole]
      trivial
  | unit | string | argList => exact trivial

section Constants

variable {P : Program} {F : FunctionData} {X : Ctx}

theorem Ctx.instData_eq (globals : X.globals = P.globals) (x : Inst) :
    X.instData F x = P.instData F x := by
  rw [Ctx.instData, Program.instData, globals]

/-- A constant of a type has as many bytes as the type. -/
theorem FunctionData.Shaped.constBytes_length (shaped : F.Shaped P) {ty : Ty} {x : Inst}
    {bytes : List MByte} (isTy : P.typeOf F x = some ty)
    (h : Ctx.constBytes (P.instData F) ty x = some bytes) : bytes.length = ty.size := by
  induction ty generalizing x bytes with
  | array base len ih =>
    obtain ⟨⟨dataTy, kind⟩, found, rfl⟩ := Option.map_eq_some_iff.mp isTy
    simp only [Ctx.constBytes, found] at h
    split at h
    · next value same =>
        obtain ⟨base', sameTy, elements⟩ := shaped.aggregate (found.trans same)
        cases same
        cases sameTy
        obtain ⟨lists, isLists, rfl⟩ := Option.map_eq_some_iff.mp h
        clear found isTy h
        rw [Ty.size, Nat.mul_comm]
        induction value generalizing lists with
        | nil =>
          cases isLists
          simp
        | cons elem value ihValue =>
          simp only [List.mapM_cons, Option.bind_eq_bind, Option.bind_eq_some_iff, Option.pure_def,
            Option.some.injEq] at isLists
          obtain ⟨list, isList, rest, isRest, rfl⟩ := isLists
          have first := ih (elements elem List.mem_cons_self) isList
          have later :=
            ihValue (fun e member => elements e (List.mem_cons_of_mem _ member)) rest
            isRest
          rw [List.flatten_cons, List.length_append, first, later, List.length_cons, Nat.succ_mul,
            Nat.add_comm]
    · cases h
      exact List.length_replicate
    · cases h
      exact List.length_replicate
    · cases h
  | _ =>
    simp only [Ctx.constBytes] at h
    split at h <;> cases h <;> exact encode_length _ _

theorem FunctionData.Shaped.constVal_hasTy (shaped : F.Shaped P) (globals : X.globals = P.globals)
    {x : Inst} {data : InstData} (found : X.instData F x = some data) {v : Val}
    (isVal : X.constVal F x data = some v) : v.HasTy data.ty := by
  rw [Ctx.instData_eq globals] at found
  have table : X.instData F = P.instData F := funext (Ctx.instData_eq globals)
  obtain ⟨ty, kind⟩ := data
  cases kind with
  | undef =>
    cases isVal
    trivial
  | zeroInit =>
    cases isVal
    dsimp only
    cases ty with
    | vector elem lanes =>
      have small := shaped.vector found rfl
      exact ⟨elem, by rw [List.length_replicate], small⟩
    | array base len => exact ⟨base, len, rfl, List.length_replicate⟩
    | _ => simp [zeroVal, Val.HasTy]
  | integer value =>
    cases isVal
    exact shaped.integer found
  | float bits =>
    cases isVal
    exact shaped.float found
  | globalAlloc init =>
    cases isVal
    exact shaped.address found (.inr ⟨init, rfl⟩)
  | aggregate value =>
    obtain ⟨bytes, isBytes, rfl⟩ := Option.map_eq_some_iff.mp isVal
    obtain ⟨base, rfl, -⟩ := shaped.aggregate found
    rw [table] at isBytes
    have isTy : P.typeOf F x = some (.array base value.length) := by
      rw [Program.typeOf, found]
      rfl
    exact ⟨base, _, rfl, shaped.constBytes_length isTy isBytes⟩
  | _ => cases isVal

end Constants

/-! ## The values of an activation -/

section Values

variable {P : Program} {F : FunctionData} {X : Ctx} {a b : Activation} {m m' : Mem} {env : Env}

/-- Every value belongs to an instruction, and has the shape of its type. -/
def Env.Shaped (F : FunctionData) (env : Env) : Prop :=
  ∀ x v, env x = some v → ∃ data, F.insts x = some data ∧ v.HasTy data.ty

variable {v : Val} {data : InstData}

/-- A bound parameter holds its argument, as seen at its type. -/
theorem bindParams_position {params : List Inst} {vals : List Val} (nodup : params.Nodup) {i : Nat}
    {param : Inst} (isParam : params[i]? = some param) (isVal : vals[i]? = some v)
    (found : F.insts param = some data) :
    bindParams F env params vals param = some (v.fit data.ty) := by
  induction params generalizing vals i with
  | nil => simp at isParam
  | cons first params ih =>
    obtain ⟨fresh, nodup⟩ := List.nodup_cons.mp nodup
    cases vals with
    | nil => simp at isVal
    | cons val vals =>
      cases i with
      | zero =>
        obtain rfl : first = param := by simpa using isParam
        obtain rfl : val = v := by simpa using isVal
        simp [bindParams, found]
      | succ i =>
        simp only [List.getElem?_cons_succ] at isParam isVal
        have differ : param ≠ first := by
          rintro rfl
          exact fresh (List.mem_of_getElem? isParam)
        rw [bindParams, Function.update_of_ne differ]
        exact ih nodup isParam isVal

theorem Env.Shaped.bindParams (shaped : Env.Shaped F env) (params : List Inst) (vals : List Val) :
    Env.Shaped F (bindParams F env params vals) := by
  induction params generalizing vals with
  | nil => exact shaped
  | cons first params ih =>
    cases vals with
    | nil => exact shaped
    | cons val vals =>
      intro x v isVal
      rw [Ir.bindParams] at isVal
      by_cases isFirst : x = first
      · subst isFirst
        rw [Function.update_self] at isVal
        obtain ⟨data, found, rfl⟩ := Option.map_eq_some_iff.mp isVal
        exact ⟨data, found, val.fit_hasTy data.ty⟩
      · rw [Function.update_of_ne isFirst] at isVal
        exact ih vals _ _ isVal

theorem Env.Shaped.define (shaped : Env.Shaped F a.env) {inst : Inst}
    (found : F.insts inst = some data) (isVal : v.HasTy data.ty) :
    Env.Shaped F (a.define inst v).env := by
  intro x w isVal'
  by_cases isInst : x = inst
  · subst isInst
    simp only [Activation.define, Function.update_self] at isVal'
    cases isVal'
    exact ⟨data, found, isVal⟩
  · rw [Activation.define_env_of_ne isInst] at isVal'
    exact shaped _ _ isVal'

theorem Env.Shaped.start {func : Function} {frame : Nat} {args : List Val}
    (started : Activation.start F func frame args = some a) : Env.Shaped F a.env := by
  obtain ⟨entry, insts, -, -, -, rfl⟩ := Activation.start_eq_some.mp started
  refine Env.Shaped.bindParams ?_ _ _
  intro x v isVal
  cases isVal

theorem Env.Shaped.openStep (shaped : Env.Shaped F a.env) (types : F.Shaped P)
    (wellFormed : F.WellFormed) {seen : List Seen} (step : OpenStep X F a m seen (.running b m')) :
    Env.Shaped F b.env := by
  cases step with
  | value current effect =>
    obtain ⟨data, found⟩ := exec_isSome effect
    refine shaped.define found ?_
    cases executes_of_exec found effect with
    | alloc kind => exact types.address (wellFormed.instData_eq found) (.inl kind)
    | load => exact decode_hasTy _ _
    | pure => exact Val.fit_hasTy _ _
  | write => exact shaped
  | goto current effect entered =>
    obtain ⟨-, insts, -, rfl⟩ := Activation.enterBlock_eq_some.mp entered
    exact shaped.bindParams _ _
  | call _ current effect resumed =>
    obtain ⟨inst, rest, data, -, found, rfl⟩ := Activation.resume_eq_some.mp resumed
    exact shaped.define found (Val.fit_hasTy _ _)

/-- The value of an operand has the shape of its type. -/
theorem Env.Shaped.operand (shaped : Env.Shaped F env) (types : F.Shaped P)
    (wellFormed : F.WellFormed) (globals : X.globals = P.globals) {x : Inst} {v : Val}
    (isVal : X.operand F env x = some v) {ty : Ty} (isTy : P.typeOf F x = some ty) :
    v.HasTy ty := by
  obtain ⟨data, found, rfl⟩ := Option.map_eq_some_iff.mp isTy
  rw [Ctx.operand, Ctx.instData_eq globals, found] at isVal
  dsimp only at isVal
  split at isVal
  · exact types.constVal_hasTy globals ((Ctx.instData_eq globals x).trans found) isVal
  · obtain ⟨data', found', shape⟩ := shaped _ _ isVal
    cases (wellFormed.instData_eq found').symm.trans found
    exact shape

end Values

/-! ## Functions given by lists -/

namespace Listing

/-- The types of one instruction. -/
def shapedData (P : Program) (F : FunctionData) (data : InstData) : Bool :=
  (match data.ty with
    | .vector elem _ => elem.size = 4
    | _ => true) &&
  match data.kind with
  | .integer _ => data.ty = .int32
  | .float _ => data.ty = .float32
  | .alloc | .globalAlloc _ => data.ty.isPointer
  | .aggregate value =>
    match data.ty with
    | .array base len => len = value.length && value.all fun elem => P.typeOf F elem = some base
    | _ => false
  | _ => true

/-- `FunctionData.Shaped` of a function in a program without globals, as a check. -/
def shaped (P : Program) (L : Listing) : Bool :=
  (L.insts.all fun entry => shapedData P L.toFunctionData entry.2) &&
  L.layout.all fun entry => (L.toFunctionData.outgoingEdges entry.1).all fun e =>
    e.args.map (P.typeOf L.toFunctionData) =
      (L.toFunctionData.blockParams e.target).map (P.typeOf L.toFunctionData)

theorem shaped_toFunctionData {P : Program} {L : Listing} (noGlobals : P.globals = fun _ => none)
    (h : L.shaped P = true) : L.toFunctionData.Shaped P := by
  obtain ⟨insts, edges⟩ := Bool.and_eq_true_iff.mp h
  have each : ∀ {x data}, P.instData L.toFunctionData x = some data →
      shapedData P L.toFunctionData data = true := by
    intro x data found
    rw [Program.instData, noGlobals] at found
    split at found
    · cases found
    · exact List.all_eq_true.mp insts _ (mem_of_lookup found)
  refine ⟨?_, ?_, ?_, ?_, ?_, ?_⟩
  · intro x data elem lanes found isVector
    have checked := (Bool.and_eq_true_iff.mp (each found)).1
    rw [isVector] at checked
    exact of_decide_eq_true checked
  · intro x ty value found
    exact of_decide_eq_true (Bool.and_eq_true_iff.mp (each found)).2
  · intro x ty bits found
    exact of_decide_eq_true (Bool.and_eq_true_iff.mp (each found)).2
  · intro x data found isAddress
    have checked := (Bool.and_eq_true_iff.mp (each found)).2
    rcases isAddress with kind | ⟨init, kind⟩ <;>
    · rw [kind] at checked
      exact checked
  · intro x ty value found
    have checked := (Bool.and_eq_true_iff.mp (each found)).2
    cases ty with
    | array base len =>
      obtain ⟨length, elements⟩ := Bool.and_eq_true_iff.mp checked
      obtain rfl := of_decide_eq_true length
      exact ⟨base, rfl, fun elem member =>
        of_decide_eq_true (List.all_eq_true.mp elements elem member)⟩
    | _ => cases checked
  · intro bb e leaves
    obtain ⟨block, isBlock⟩ := FunctionData.exists_of_edge leaves
    have checked := List.all_eq_true.mp edges _ (FunctionData.mem_of_blockInsts isBlock)
    exact of_decide_eq_true (List.all_eq_true.mp checked e leaves)

end Listing

end AnonCompiler.Ir
