import AnonCompiler.Opt.SummarySound

/-!
# The summaries along a run

A run keeps a stack of activations in which every callee answers its caller: if
the caller waits at a call of a summarised function with non-negative arguments,
the activation above it belongs to a summarised function and was entered with
non-negative arguments.  Returns then hand over non-negative values, and the
facts of the caller go on to hold.

Tail calls are where the summaries of the source go wrong: a `TailCall` leaves a
function as a `Return` does, but only the values of `Return` are looked at.  A
run is orderly when this and the other cases the analysis does not look at do
not occur in it.
-/

set_option autoImplicit false

namespace AnonCompiler.Opt.ReturnSummary

open Ir Lib GuardElimination

variable {World : Type} (S : Setting World)

/-- The parameters of the activation are not negative. -/
def Good (a : Activation) : Prop :=
  ∀ F entry, S.program.funcData a.func = some F → F.entryBlock = some entry →
    ∀ param ∈ F.blockParams entry, ∀ v, a.env param = some v → Nonneg v

/-- An activation of a summarised function whose parameters are not negative. -/
def Trusted (a : Activation) : Prop :=
  a.func ∈ nonnegPreservingFunctions S.program ∧ Good S a

/-- Whatever set is supported by parameters that are not negative, the values of
its members are not negative. -/
def Tracked (a : Activation) : Prop :=
  ∃ F entry, S.program.funcData a.func = some F ∧ F.entryBlock = some entry ∧ a.Placed F ∧
    ∀ seeds D, Basis S.program F entry seeds (nonnegPreservingFunctions S.program) D →
      (∀ param v, seeds param → a.env param = some v → Nonneg v) → Sound S.program F D a.env

/-- The activation waits at the call of a function with a body. -/
def Waiting (a : Activation) : Prop :=
  ∃ F inst rest callee args G, S.program.funcData a.func = some F ∧ a.rest = inst :: rest ∧
    F.kind inst = some (.call callee args) ∧ (∃ vals, S.ctx.operands F a.env args = some vals) ∧
      S.program.funcData callee = some G ∧ G.layout ≠ []

/-- The activation waits at the call of a summarised function, with arguments
that are not negative. -/
def Expects (a : Activation) : Prop :=
  ∃ F inst rest callee args vals, S.program.funcData a.func = some F ∧ a.rest = inst :: rest ∧
    F.kind inst = some (.call callee args) ∧ callee ∈ nonnegPreservingFunctions S.program ∧
      S.ctx.operands F a.env args = some vals ∧ ∀ v ∈ vals, Nonneg v

/-- What the activations below rely on; under all of them is whoever started the
run. -/
def Expected (promise : Prop) : List Activation → Prop
  | [] => promise
  | a :: _ => Expects S a

/-- Every activation is tracked and answers the one below. -/
inductive Linked (promise : Prop) : List Activation → Prop where
  | nil : Linked promise []
  | cons {a : Activation} {below : List Activation} (tracked : Tracked S a)
      (answers : Expected S promise below → Trusted S a)
      (waiting : ∀ caller, below.head? = some caller → Waiting S caller)
      (others : Linked promise below) : Linked promise (a :: below)

/-- The invariant of a run. -/
def Kept (promise : Prop) : Setting.State World → Prop
  | .running stack _ => Linked S promise stack
  | .finished value _ => promise → Nonneg (value.getD .undef)

/-- The step the activation on top is about to make is none the analysis does
not look at. -/
structure OrderlyTop (a : Activation) (σ : Shared World) (F : FunctionData)
    (inst : Inst) : Prop where
  /-- A halving chain does not see the least word. -/
  chain : ChainOk S.program F a.env inst
  /-- Control does not come back to the entry block. -/
  entry : ∀ target vals, exec S.ctx F a σ.mem inst = some (.goto target vals) →
    F.entryBlock ≠ some target
  /-- The builtin is not called with modulus zero. -/
  modulus : ∀ callee vals G, exec S.ctx F a σ.mem inst = some (.call callee vals) →
    S.program.funcData callee = some G → G.name = mulmodHelper → ∀ x y, vals ≠ [x, y, .int 0]
  /-- A summarised function entered with non-negative arguments is left by a tail
  call only to another such. -/
  tail : ∀ callee vals, exec S.ctx F a σ.mem inst = some (.tailCall callee vals) → Trusted S a →
    callee ∈ nonnegPreservingFunctions S.program ∧ ∀ v ∈ vals, Nonneg v

def Orderly : Setting.State World → Prop
  | .running (a :: _) σ => ∀ F inst rest, S.program.funcData a.func = some F →
      a.rest = inst :: rest → OrderlyTop S a σ F inst
  | _ => True

/-- The name of the builtin is not taken by a function with a body. -/
def BuiltinOnly (P : Program) : Prop :=
  ∀ f F, P.funcData f = some F → F.name = mulmodHelper → F.layout = []

variable {S} {promise : Prop} {F : FunctionData} {a a' c : Activation} {σ : Shared World}
  {inst : Inst} {rest : List Inst} {below : List Activation}

/-! ## Entering a function -/

variable {func callee f : Function} {frame : Nat} {entry : BasicBlock} {param : Inst} {v : Val}
  {G : FunctionData} {σ' : Shared World} {seeds : Inst → Prop} {nonneg : List Function}
  {D : Inst → Bool} {env : Env} {vals : List Val} {m : Mem} {value : Option Val}
  {s t : Setting.State World} {P : Program}

theorem tracked_start {args : List Val} (data : S.program.funcData func = some F)
    (started : Activation.start F func frame args = some c) : Tracked S c := by
  have placed := Activation.Placed.start started
  obtain ⟨entry, insts, isEntry, -, -, rfl⟩ := Activation.start_eq_some.mp started
  refine ⟨F, entry, data, isEntry, placed, fun seeds D basis seedsHold => ?_⟩
  exact Sound.start basis fun seed bound => seedsHold _ _ seed bound

/-- A parameter of a new activation has the value of an argument. -/
theorem start_param (wellFormed : F.WellFormed) {args : List Val}
    (started : Activation.start F func frame args = some c) (isEntry : F.entryBlock = some entry)
    {i : Nat} (isParam : (F.blockParams entry)[i]? = some param) (bound : c.env param = some v) :
    ∃ arg ty, args[i]? = some arg ∧ v = arg.fit ty := by
  obtain ⟨entry', insts, isEntry', same, -, rfl⟩ := Activation.start_eq_some.mp started
  obtain rfl := Option.some.inj (isEntry.symm.trans isEntry')
  exact bindParams_getElem (wellFormed.blockParams_nodup entry) same isParam bound

theorem start_func {args : List Val} (started : Activation.start F func frame args = some c) :
    c.func = func := by
  obtain ⟨entry, insts, -, -, -, rfl⟩ := Activation.start_eq_some.mp started
  rfl

theorem trusted_start (wellFormed : S.program.WellFormed) {args : List Val}
    (data : S.program.funcData func = some F)
    (started : Activation.start F func frame args = some c)
    (summarised : func ∈ nonnegPreservingFunctions S.program) (nonneg : ∀ v ∈ args, Nonneg v) :
    Trusted S c := by
  have isFunc := start_func started
  refine ⟨isFunc ▸ summarised, ?_⟩
  intro F' entry data' isEntry param isParam v bound
  rw [isFunc] at data'
  obtain rfl := Option.some.inj (data.symm.trans data')
  obtain ⟨i, isParam⟩ := List.mem_iff_getElem?.mp isParam
  obtain ⟨arg, ty, isArg, rfl⟩ :=
    start_param (wellFormed.function data).1 started isEntry isParam bound
  exact (nonneg arg (List.mem_of_getElem? isArg)).fit ty

theorem started_of_invoke {args : List Val} {σ : Shared World}
    (invoked : invoke func G args σ = some (c, σ')) :
    Activation.start G func σ.nextFrame args = some c := by
  obtain ⟨c', started, same⟩ := Option.map_eq_some_iff.mp invoked
  cases same
  exact started

/-! ## Staying in a function -/

/-- The parameters of the function keep their values. -/
def SameParams (S : Setting World) (a a' : Activation) : Prop :=
  a'.func = a.func ∧ ∀ F entry, S.program.funcData a.func = some F → F.entryBlock = some entry →
    ∀ param ∈ F.blockParams entry, a'.env param = a.env param

theorem SameParams.good (same : SameParams S a a') (h : Good S a) : Good S a' := by
  intro F entry data isEntry param isParam v bound
  rw [same.1] at data
  exact h F entry data isEntry param isParam v (same.2 F entry data isEntry param isParam ▸ bound)

theorem SameParams.trusted (same : SameParams S a a') (h : Trusted S a) : Trusted S a' :=
  ⟨same.1 ▸ h.1, same.good h.2⟩

theorem sameParams_define (wellFormed : F.WellFormed) (data : S.program.funcData a.func = some F)
    (laidOut : inst ∈ F.layoutInsts) (v : Val) : SameParams S a (a.define inst v) := by
  refine ⟨rfl, fun F' entry data' isEntry param isParam => ?_⟩
  obtain rfl := Option.some.inj (data.symm.trans data')
  refine Function.update_of_ne ?_ ..
  rintro rfl
  obtain ⟨d, found, notParam⟩ := wellFormed.laidOut laidOut
  obtain ⟨d', index, found', isRef⟩ := wellFormed.blockParam isParam
  cases found.symm.trans found'
  exact notParam index isRef

/-- Defining a value keeps an activation tracked when the value is what the
members of supported sets promise. -/
theorem Tracked.define (wellFormed : S.program.WellFormed) (tracked : Tracked S a)
    (data : S.program.funcData a.func = some F) (current : a.rest = inst :: rest)
    (keeps : ∀ entry seeds D,
    Basis S.program F entry seeds (nonnegPreservingFunctions S.program) D →
      Sound S.program F D a.env → Sound S.program F D (Function.update a.env inst (some v))) :
    Tracked S (a.define inst v) := by
  obtain ⟨F', entry, data', isEntry, placed, sound⟩ := tracked
  obtain rfl := Option.some.inj (data.symm.trans data')
  have same := sameParams_define (wellFormed.function data).1 data (placed.laidOut current) v
  refine ⟨F, entry, data, isEntry, placed.next rfl rfl, fun seeds D basis seedsHold => ?_⟩
  refine keeps entry seeds D basis (sound seeds D basis fun param w seed bound => ?_)
  exact seedsHold param w seed (same.2 F entry data isEntry param (basis.seed seed) ▸ bound)

/-- A call instruction that belongs to a supported set. -/
theorem Basis.call {entry : BasicBlock} {seeds : Inst → Prop} {nonneg : List Function}
    {D : Inst → Bool} (basis : Basis S.program F entry seeds nonneg D) {callee : Function}
    {args : List Inst} {G : FunctionData} (kind : F.kind inst = some (.call callee args))
    (data : S.program.funcData callee = some G) (member : D inst = true) :
    (G.name = mulmodHelper ∧ ∃ x y p, args = [x, y, p] ∧ D x = true ∧ D y = true) ∨
      (callee ∈ nonneg ∧ ∀ arg ∈ args, D arg = true) := by
  obtain ⟨d, found, isCall⟩ := Option.map_eq_some_iff.mp kind
  have rule := basis.rule (basis.wellFormed.instData_eq found)
    (fun index isRef => by simp [isRef] at isCall) member
  rw [isCall] at rule
  change callRule S.program nonneg D callee args = true at rule
  unfold callRule at rule
  rw [data, Option.map_some] at rule
  split at rule
  · next isBuiltin =>
      split at rule
      · next x y p =>
          obtain ⟨first, second⟩ := Bool.and_eq_true_iff.mp rule
          exact .inl ⟨Option.some.inj isBuiltin, x, y, p, rfl, first, second⟩
      · cases rule
  · obtain ⟨inSummary, all⟩ := Bool.and_eq_true_iff.mp rule
    exact .inr ⟨by simpa using inSummary, List.all_eq_true.mp all⟩

/-- The result of a call is only asked to be non-negative. -/
theorem Sound.define_call (basis : Basis S.program F entry seeds nonneg D)
    (sound : Sound S.program F D env) {args : List Inst}
    (kind : F.kind inst = some (.call callee args)) (nonneg : D inst = true → Nonneg v) :
    Sound S.program F D (Function.update env inst (some v)) := by
  obtain ⟨d, found, isCall⟩ := Option.map_eq_some_iff.mp kind
  have isKind : kindIn S.program F inst = some (.call callee args) := by
    rw [kindIn, basis.wellFormed.instData_eq found, Option.map_some, isCall]
  refine sound.define nonneg ?_ ?_ ?_
  · intro x isShr _
    obtain ⟨lhs, rhs, other, -⟩ := shrIs_eq isShr
    cases isKind.symm.trans other
  · intro base x isSum _ _
    obtain ⟨lhs, rhs, other, -⟩ := halvingBase_eq isSum
    cases isKind.symm.trans other
  · intro lhs rhs x isLt _ _ _
    cases isKind.symm.trans isLt

/-- The values of arguments that belong to a supported set. -/
theorem Sound.operands (sound : Sound S.program F D env)
    (basis : Basis S.program F entry seeds nonneg D) {args : List Inst}
    (operands : S.ctx.operands F env args = some vals) (members : ∀ arg ∈ args, D arg = true) :
    ∀ v ∈ vals, Nonneg v := by
  intro v member
  obtain ⟨i, isVal⟩ := List.mem_iff_getElem?.mp member
  rw [Ctx.operands_getElem operands] at isVal
  obtain ⟨arg, isArg, operand⟩ := Option.bind_eq_some_iff.mp isVal
  exact sound.operand basis (members arg (List.mem_of_getElem? isArg)) operand

theorem kind_of_call (effect : exec S.ctx F a m inst = some (.call callee vals)) :
    ∃ args, F.kind inst = some (.call callee args) ∧ S.ctx.operands F a.env args = some vals := by
  obtain ⟨d, found⟩ := exec_isSome effect
  cases executes_of_exec found effect with
  | call kind operands => exact ⟨_, by simp [FunctionData.kind, found, kind], operands⟩

/-- Summarised functions have a body. -/
theorem body_of_summarised (wellFormed : S.program.WellFormed)
    (member : f ∈ nonnegPreservingFunctions S.program) (data : S.program.funcData f = some G) :
    G.layout ≠ [] := by
  obtain ⟨G', D, defined, -⟩ := summarised_of_mem wellFormed member
  obtain ⟨data', body⟩ := definedData_eq_some.mp defined
  obtain rfl := Option.some.inj (data.symm.trans data')
  exact body

/-- The builtin gives a non-negative remainder of a non-negative product. -/
theorem mulmodBuiltin_nonneg {x y p : Val} (first : Nonneg x) (second : Nonneg y)
    (modulus : p ≠ .int 0) (h : mulmodBuiltin [x, y, p] = some v) : Nonneg v := by
  unfold mulmodBuiltin at h
  split at h
  · next a b q same =>
      obtain rfl := Option.some.inj h
      simp only [List.cons.injEq, and_true] at same
      obtain ⟨rfl, rfl, rfl⟩ := same
      refine .of_int (Word.nonneg_ofInt_tmod (Int.mul_nonneg (first a rfl) (second b rfl)) ?_)
      rintro rfl
      exact modulus rfl
  · cases h

section

variable (wellFormed : S.program.WellFormed)
include wellFormed

/-- A step inside a function keeps the activation tracked and its parameters. -/
theorem stay_step (tracked : Tracked S a) (data : S.program.funcData a.func = some F)
    (current : a.rest = inst :: rest) (orderly : OrderlyTop S a σ F inst)
    (moves : Moves S F a σ inst (.stay a') σ') : Tracked S a' ∧ SameParams S a a' := by
  have wf := (wellFormed.function data).1
  obtain ⟨F', entry, data', isEntry, placed, sound⟩ := id tracked
  obtain rfl := Option.some.inj (data.symm.trans data')
  have laidOut := placed.laidOut current
  cases moves with
  | value effect =>
    refine ⟨tracked.define wellFormed data current fun entry seeds D basis sound => ?_,
      sameParams_define wf data laidOut _⟩
    exact sound.value basis laidOut orderly.chain rfl effect
  | write effect =>
    exact ⟨⟨F, entry, data, isEntry, placed.next rfl rfl, sound⟩, rfl, fun _ _ _ _ _ _ => rfl⟩
  | @goto target args a' effect entered =>
    obtain ⟨edge, leaves, rfl, operands⟩ := placed.edge_of_goto wf current effect
    have notEntry : edge.target ≠ entry := by
      rintro rfl
      exact orderly.entry _ _ effect isEntry
    have placed' := placed.enterBlock leaves entered
    obtain ⟨same, insts, block, rfl⟩ := Activation.enterBlock_eq_some.mp entered
    have sameParams : SameParams S a
        { a with env := bindParams F a.env (F.blockParams edge.target) args
                 block := edge.target, rest := insts } := by
      refine ⟨rfl, fun F' entry' data' isEntry' param isParam => ?_⟩
      obtain rfl := Option.some.inj (data.symm.trans data')
      obtain rfl := Option.some.inj (isEntry.symm.trans isEntry')
      refine bindParams_of_notMem fun elsewhere => notEntry ?_
      exact wf.blockParams_unique elsewhere isParam
    refine ⟨⟨F, entry, data, isEntry, placed', fun seeds D basis seedsHold => ?_⟩, sameParams⟩
    refine (sound seeds D basis fun param v seed bound => ?_).goto basis placed.reached leaves
      notEntry operands same
    exact seedsHold param v seed
      ((sameParams.2 F entry data isEntry param (basis.seed seed)).trans bound)
  | @callExternal callee vals G value m world a' effect data' noBody answered resumed =>
    obtain ⟨args, kind, operands⟩ := kind_of_call effect
    obtain ⟨inst', rest', d, current', found, rfl⟩ := Activation.resume_eq_some.mp resumed
    obtain ⟨rfl, rfl⟩ := List.cons.inj (current.symm.trans current')
    refine ⟨tracked.define wellFormed data current fun entry seeds D basis sound => ?_,
      sameParams_define wf data laidOut _⟩
    refine sound.define_call basis kind fun member => Nonneg.fit ?_ d.ty
    have isCall := basis.call kind data' member
    rcases isCall with ⟨isBuiltin, x, y, p, rfl, first, second⟩ | ⟨inSummary, -⟩
    · obtain ⟨vx, vy, vp, rfl⟩ : ∃ vx vy vp, vals = [vx, vy, vp] :=
        List.length_eq_three.mp (Ctx.operands_length operands)
      have isX : S.ctx.operand F a.env x = some vx := by
        simpa using (Ctx.operands_getElem operands 0).symm
      have isY : S.ctx.operand F a.env y = some vy := by
        simpa using (Ctx.operands_getElem operands 1).symm
      rw [callExternal, if_pos isBuiltin] at answered
      obtain ⟨v, computed, same⟩ := Option.map_eq_some_iff.mp answered
      cases same
      refine mulmodBuiltin_nonneg (sound.operand basis first isX) (sound.operand basis second isY)
        ?_ computed
      rintro rfl
      exact orderly.modulus callee _ G effect data' isBuiltin vx vy rfl
    · exact absurd noBody (body_of_summarised wellFormed inSummary data')

/-- What leaves a trusted activation is not negative. -/
theorem pop_step (tracked : Tracked S a) (trusted : Trusted S a)
    (data : S.program.funcData a.func = some F) (current : a.rest = inst :: rest)
    (orderly : OrderlyTop S a σ F inst) (moves : Moves S F a σ inst (.pop value) σ') :
    Nonneg (value.getD .undef) := by
  cases moves with
  | ret effect =>
    obtain ⟨F', entry, data', isEntry, placed, sound⟩ := tracked
    obtain rfl := Option.some.inj (data.symm.trans data')
    obtain ⟨F', D, defined, supported, returned⟩ := summarised_of_mem wellFormed trusted.1
    obtain rfl := Option.some.inj (data.symm.trans (definedData_eq_some.mp defined).1)
    have wf := (wellFormed.function data).1
    have basis : Basis S.program F entry (· ∈ F.params) (nonnegPreservingFunctions S.program) D :=
      ⟨wf, isEntry, fun isParam => wf.params_entry isEntry ▸ isParam, supported⟩
    have sound := sound _ D basis fun param v isParam =>
      trusted.2 F entry data isEntry param (basis.seed isParam) v
    obtain ⟨d, found⟩ := exec_isSome effect
    cases executes_of_exec found effect with
    | retVoid => exact fun x same => by cases same
    | ret kind operand =>
      refine sound.operand basis (returned inst (placed.laidOut current) _ ?_) operand
      simp [FunctionData.kind, found, kind]
  | tailExternal effect _ data' noBody _ =>
    obtain ⟨inSummary, -⟩ := orderly.tail _ _ effect trusted
    exact absurd noBody (body_of_summarised wellFormed inSummary data')

/-- A value comes back to the activations below. -/
theorem kept_returnTo (builtin : BuiltinOnly S.program)
    (nonneg : Expected S promise below → Nonneg (value.getD .undef))
    (waiting : ∀ caller, below.head? = some caller → Waiting S caller)
    (others : Linked S promise below) (returned : S.returnTo below value σ = some s) :
    Kept S promise s := by
  cases others with
  | nil =>
    obtain rfl := Option.some.inj returned
    exact nonneg
  | @cons caller below tracked answers waiting' others =>
    obtain ⟨F, inst, rest, callee, args, G, data, current, kind, ⟨vals, operands⟩, data', body⟩ :=
      waiting caller rfl
    simp only [Setting.returnTo, data] at returned
    obtain ⟨a', resumed, rfl⟩ := Option.map_eq_some_iff.mp returned
    obtain ⟨inst', rest', d, current', found, rfl⟩ := Activation.resume_eq_some.mp resumed
    obtain ⟨rfl, rfl⟩ := List.cons.inj (current.symm.trans current')
    obtain ⟨F', _, data₁, _, placed, _⟩ := id tracked
    obtain rfl := Option.some.inj (data.symm.trans data₁)
    have same := sameParams_define (wellFormed.function data).1 data (placed.laidOut current)
      ((value.getD .undef).fit d.ty)
    refine .cons (tracked.define wellFormed data current fun entry seeds D basis sound => ?_)
      (fun expected => same.trusted (answers expected)) waiting' others
    refine sound.define_call basis kind fun member => Nonneg.fit (nonneg ?_) d.ty
    rcases basis.call kind data' member with ⟨isBuiltin, -⟩ | ⟨inSummary, members⟩
    · exact absurd (builtin callee G data' isBuiltin) body
    · exact ⟨F, inst, rest, callee, args, vals, data, current, kind, inSummary, operands,
        sound.operands basis operands members⟩

/-- One step keeps the invariant. -/
theorem kept_step (builtin : BuiltinOnly S.program) (kept : Kept S promise s)
    (orderly : Orderly S s) (stepped : S.step s = some t) : Kept S promise t := by
  cases s with
  | finished => cases stepped
  | running stack σ =>
    cases kept with
    | nil => cases stepped
    | @cons a below tracked answers waiting others =>
      simp only [Setting.step, Option.bind_eq_some_iff] at stepped
      obtain ⟨⟨m, σ'⟩, moved, applied⟩ := stepped
      obtain ⟨F, inst, rest, data, current, moves⟩ := moves_of_move moved
      have orderly := orderly F inst rest data current
      cases m with
      | stay a' =>
        obtain rfl := Option.some.inj applied
        obtain ⟨tracked', same⟩ := stay_step wellFormed tracked data current orderly moves
        exact .cons tracked' (fun expected => same.trusted (answers expected)) waiting others
      | push c =>
        obtain rfl := Option.some.inj applied
        cases moves with
        | call effect data' body invoked =>
          have started := started_of_invoke invoked
          obtain ⟨args, kind, operands⟩ := kind_of_call effect
          refine .cons (tracked_start data' started) ?_ ?_
            (.cons tracked answers waiting others)
          · rintro ⟨F', inst', rest', callee', args', vals', data₁, current', kind',
              inSummary, operands', nonneg⟩
            obtain rfl := Option.some.inj (data.symm.trans data₁)
            obtain ⟨rfl, rfl⟩ := List.cons.inj (current.symm.trans current')
            cases kind.symm.trans kind'
            obtain rfl := Option.some.inj (operands.symm.trans operands')
            exact trusted_start wellFormed data' started inSummary nonneg
          · rintro caller isCaller
            obtain rfl := Option.some.inj isCaller
            exact ⟨F, inst, rest, _, args, _, data, current, kind, ⟨_, operands⟩, data', body⟩
      | replace c =>
        obtain rfl := Option.some.inj applied
        cases moves with
        | tailSelf effect started =>
          refine .cons (tracked_start data started) (fun expected => ?_) waiting others
          obtain ⟨inSummary, nonneg⟩ := orderly.tail _ _ effect (answers expected)
          exact trusted_start wellFormed data started inSummary nonneg
        | tailCall effect other data' body invoked =>
          have started := started_of_invoke invoked
          refine .cons (tracked_start data' started) (fun expected => ?_) waiting others
          obtain ⟨inSummary, nonneg⟩ := orderly.tail _ _ effect (answers expected)
          exact trusted_start wellFormed data' started inSummary nonneg
      | pop value =>
        exact kept_returnTo wellFormed builtin
          (fun expected => pop_step wellFormed tracked (answers expected) data current orderly
            moves) waiting others applied

end

/-! ## The parameters that are always non-negative -/

/-- The parameters left by `alwaysNonnegParams`, and the facts derived from
them, as the pass uses them. -/
def always (P : Program) (f : Function) : List Inst :=
  paramsOf (alwaysNonnegParams P (nonnegPreservingFunctions P)) f

/-- The function is laid out and those of its parameters are not negative. -/
def AlwaysHolds (S : Setting World) (a : Activation) : Prop :=
  a.func ∈ S.program.functionLayout ∧
    ∀ param ∈ always S.program a.func, ∀ v, a.env param = some v → Nonneg v

theorem defined_of_entry (data : P.funcData f = some F) (isEntry : F.entryBlock = some entry) :
    definedData P f = some F := by
  refine definedData_eq_some.mpr ⟨data, fun noBody => ?_⟩
  simp [FunctionData.entryBlock, noBody] at isEntry

theorem SameParams.alwaysHolds (same : SameParams S a a') (wellFormed : F.WellFormed)
    (data : S.program.funcData a.func = some F) (isEntry : F.entryBlock = some entry)
    (h : AlwaysHolds S a) : AlwaysHolds S a' := by
  have defined := defined_of_entry data isEntry
  refine ⟨same.1 ▸ h.1, fun param member v bound => ?_⟩
  rw [same.1] at member
  have isParam := wellFormed.params_entry isEntry ▸ (provable_of_mem defined member).1
  exact h.2 param member v (same.2 F entry data isEntry param isParam ▸ bound)

section

variable (wellFormed : S.program.WellFormed) (tracked : Tracked S a) (h : AlwaysHolds S a)
  (data : S.program.funcData a.func = some F)
include wellFormed tracked h data

/-- The facts about an activation hold. -/
theorem facts_sound :
    ∃ entry, Basis S.program F entry (· ∈ always S.program a.func)
        (nonnegPreservingFunctions S.program)
        (proves S.program F (nonnegPreservingFunctions S.program) (factsOf S.program a.func F)) ∧
      Sound S.program F
        (proves S.program F (nonnegPreservingFunctions S.program) (factsOf S.program a.func F))
        a.env := by
  obtain ⟨F', entry, data', isEntry, placed, sound⟩ := tracked
  obtain rfl := Option.some.inj (data.symm.trans data')
  have wf := (wellFormed.function data).1
  have defined := defined_of_entry data isEntry
  have basis : Basis S.program F entry (· ∈ always S.program a.func)
      (nonnegPreservingFunctions S.program)
      (proves S.program F (nonnegPreservingFunctions S.program) (factsOf S.program a.func F)) :=
    ⟨wf, isEntry, fun member => wf.params_entry isEntry ▸ (provable_of_mem defined member).1,
      nonnegInFunction_supported wf _ _⟩
  exact ⟨entry, basis, sound _ _ basis fun param v member bound => h.2 param member v bound⟩

/-- The arguments at a call or a tail call, for the parameters of the callee that
are always non-negative. -/
theorem passed_nonneg (current : a.rest = inst :: rest) {args : List Inst}
    (kind : F.kind inst = some (.call callee args) ∨ F.kind inst = some (.tailCall callee args))
    (operands : S.ctx.operands F a.env args = some vals)
    (defined : definedData S.program callee = some G) (member : param ∈ always S.program callee)
    (isVal : vals[G.params.idxOf param]? = some v) : Nonneg v := by
  obtain ⟨entry, basis, sound⟩ := facts_sound wellFormed tracked h data
  obtain ⟨F', _, data', isEntry, placed, -⟩ := tracked
  obtain rfl := Option.some.inj (data.symm.trans data')
  have callerDefined := defined_of_entry data isEntry
  have provable := (provable_of_mem defined member).2
  simp only [paramProvableAtAllSites, List.all_eq_true] at provable
  have atCaller := provable a.func h.1
  simp only [callerDefined, sitesProve, List.all_eq_true] at atCaller
  have atSite := atCaller inst (placed.laidOut current)
  have isFact : (args[G.params.idxOf param]?).any (factsOf S.program a.func F).contains = true := by
    rcases kind with kind | kind <;> simpa [factsOf, kind] using atSite
  obtain ⟨arg, isArg, listed⟩ := Option.any_eq_true _ _ |>.mp isFact
  rw [Ctx.operands_getElem operands, isArg, Option.bind_some] at isVal
  exact sound.operand basis (proves_of_mem (List.contains_iff_mem.mp listed)) isVal

end

theorem alwaysHolds_start (wellFormed : S.program.WellFormed)
    (data : S.program.funcData func = some G) (laidOut : func ∈ S.program.functionLayout)
    (started : Activation.start G func frame vals = some c)
    (passed : ∀ param ∈ always S.program func, ∀ v, vals[G.params.idxOf param]? =
    some v → Nonneg v) :
    AlwaysHolds S c := by
  have wf := (wellFormed.function data).1
  obtain ⟨entry, insts, isEntry, -⟩ := Activation.start_eq_some.mp started
  have defined := defined_of_entry data isEntry
  have isFunc := start_func started
  refine ⟨isFunc ▸ laidOut, fun param member v bound => ?_⟩
  rw [isFunc] at member
  have isParam : (G.blockParams entry)[G.params.idxOf param]? = some param := by
    rw [← wf.params_entry isEntry]
    exact List.getElem?_idxOf (provable_of_mem defined member).1
  obtain ⟨arg, ty, isArg, rfl⟩ := start_param wf started isEntry isParam bound
  exact (passed param member arg isArg).fit ty

/-- The invariant of a run of the whole program. -/
def KeptAlways (S : Setting World) (s : Setting.State World) : Prop :=
  Kept S False s ∧ match s with
    | .running stack _ => ∀ a ∈ stack, AlwaysHolds S a
    | .finished .. => True

theorem kind_of_tailCall (effect : exec S.ctx F a m inst = some (.tailCall callee vals)) :
    ∃ args, F.kind inst = some (.tailCall callee args) ∧
      S.ctx.operands F a.env args = some vals := by
  obtain ⟨d, found⟩ := exec_isSome effect
  cases executes_of_exec found effect with
  | tailCall kind operands => exact ⟨_, by simp [FunctionData.kind, found, kind], operands⟩

/-- A new activation, called from one that satisfies the invariant. -/
theorem alwaysHolds_callee (wellFormed : S.program.WellFormed) (closed : S.program.Closed)
    (tracked : Tracked S a) (h : AlwaysHolds S a) (data : S.program.funcData a.func = some F)
    (current : a.rest = inst :: rest) {args : List Inst}
    (kind : F.kind inst = some (.call callee args) ∨ F.kind inst = some (.tailCall callee args))
    (operands : S.ctx.operands F a.env args = some vals)
    (data' : S.program.funcData callee = some G)
    (started : Activation.start G callee frame vals = some c) : AlwaysHolds S c := by
  obtain ⟨entry, insts, isEntry, -⟩ := Activation.start_eq_some.mp started
  obtain ⟨F', _, data₁, _, placed, -⟩ := id tracked
  obtain rfl := Option.some.inj (data.symm.trans data₁)
  refine alwaysHolds_start wellFormed data'
    (closed.callee h.1 data (placed.laidOut current) kind) started fun param member v isVal => ?_
  exact passed_nonneg wellFormed tracked h data current kind operands
    (defined_of_entry data' isEntry) member isVal

theorem keptAlways_step (wellFormed : S.program.WellFormed) (closed : S.program.Closed)
    (builtin : BuiltinOnly S.program) (h : KeptAlways S s) (orderly : Orderly S s)
    (stepped : S.step s = some t) : KeptAlways S t := by
  refine ⟨kept_step wellFormed builtin h.1 orderly stepped, ?_⟩
  obtain ⟨kept, all⟩ := h
  cases s with
  | finished => cases stepped
  | running stack σ =>
    cases kept with
    | nil => cases stepped
    | @cons a below tracked answers waiting others =>
      simp only [Setting.step, Option.bind_eq_some_iff] at stepped
      obtain ⟨⟨m, σ'⟩, moved, applied⟩ := stepped
      obtain ⟨F, inst, rest, data, current, moves⟩ := moves_of_move moved
      have orderly := orderly F inst rest data current
      obtain ⟨here, belowHolds⟩ := List.forall_mem_cons.mp all
      cases m with
      | stay a' =>
        obtain rfl := Option.some.inj applied
        obtain ⟨-, same⟩ := stay_step wellFormed tracked data current orderly moves
        obtain ⟨F', entry, data', isEntry, -⟩ := tracked
        obtain rfl := Option.some.inj (data.symm.trans data')
        have here' := same.alwaysHolds (wellFormed.function data).1 data isEntry here
        exact List.forall_mem_cons.mpr ⟨here', belowHolds⟩
      | push c =>
        obtain rfl := Option.some.inj applied
        cases moves with
        | call effect data' body invoked =>
          obtain ⟨args, kind, operands⟩ := kind_of_call effect
          have callee := alwaysHolds_callee wellFormed closed tracked here data current
            (.inl kind) operands data' (started_of_invoke invoked)
          exact List.forall_mem_cons.mpr ⟨callee, all⟩
      | replace c =>
        obtain rfl := Option.some.inj applied
        cases moves with
        | tailSelf effect started =>
          obtain ⟨args, kind, operands⟩ := kind_of_tailCall effect
          have callee := alwaysHolds_callee wellFormed closed tracked here data current
            (.inr kind) operands data started
          exact List.forall_mem_cons.mpr ⟨callee, belowHolds⟩
        | tailCall effect other data' body invoked =>
          obtain ⟨args, kind, operands⟩ := kind_of_tailCall effect
          have callee := alwaysHolds_callee wellFormed closed tracked here data current
            (.inr kind) operands data' (started_of_invoke invoked)
          exact List.forall_mem_cons.mpr ⟨callee, belowHolds⟩
      | pop value =>
        cases others with
        | nil =>
          obtain rfl := Option.some.inj applied
          trivial
        | @cons caller below tracked' _ _ others =>
          obtain ⟨F', entry, data', isEntry, placed, -⟩ := id tracked'
          simp only [Setting.apply, Setting.returnTo, data'] at applied
          obtain ⟨a', resumed, rfl⟩ := Option.map_eq_some_iff.mp applied
          obtain ⟨inst', rest', d, current', found, rfl⟩ :=
            Activation.resume_eq_some.mp resumed
          have wf := (wellFormed.function data').1
          have same := sameParams_define wf data' (placed.laidOut current')
            ((value.getD .undef).fit d.ty)
          obtain ⟨callerHolds, deeper⟩ := List.forall_mem_cons.mp belowHolds
          have here' := same.alwaysHolds wf data' isEntry callerHolds
          exact List.forall_mem_cons.mpr ⟨here', deeper⟩

/-! ## The summaries are sound along orderly runs -/

/-- What the pass relies on, in one state of a run: arguments, computed values
and the branches it folds. -/
structure Respected (S : Setting World) (a : Activation) (below : List Activation)
    (σ : Shared World) : Prop where
  passed : ∀ {F inst rest callee vals G param v} {i : Nat}, S.program.funcData a.func = some F →
    a.rest = inst :: rest → exec S.ctx F a σ.mem inst = some (.call callee vals) ∨
      exec S.ctx F a σ.mem inst = some (.tailCall callee vals) →
    definedData S.program callee = some G → param ∈ always S.program callee →
    G.params[i]? = some param → vals[i]? = some v → Nonneg v
  computed : ∀ {b F inst v}, b ∈ a :: below → S.program.funcData b.func = some F →
    inst ∈ factsOf S.program b.func F → b.env inst = some v → Nonneg v
  folded : ∀ {F inst rest target args effect}, S.program.funcData a.func = some F →
    a.rest = inst :: rest → (inst, target, args) ∈ folds S.program a.func F →
    exec S.ctx F a σ.mem inst = some effect →
      ∃ vals, S.ctx.operands F a.env args = some vals ∧ effect = .goto target vals

theorem mem_folds {target : BasicBlock} {args : List Inst}
    (h : (inst, target, args) ∈ folds P f F) :
    ∃ cond t tArgs x bound, F.kind inst = some (.branch cond t tArgs target args) ∧
      kindIn P F cond = some (.binary .lt x bound) ∧ isInteger P F 0 bound = true ∧
        x ∈ factsOf P f F := by
  obtain ⟨bb, -, isGuard⟩ := List.mem_filterMap.mp h
  simp only [guardOf, Option.bind_eq_bind, Option.bind_eq_some_iff] at isGuard
  obtain ⟨terminator, -, kind, isKind, rest⟩ := isGuard
  split at rest
  · next cond t tArgs e fArgs =>
      obtain ⟨kind', isKind', rest⟩ := Option.bind_eq_some_iff.mp rest
      split at rest
      · next x bound =>
          split at rest
          · next both =>
              cases rest
              obtain ⟨isZero, isFact⟩ := Bool.and_eq_true_iff.mp both
              exact ⟨cond, t, tArgs, x, bound, isKind, isKind', isZero, by simpa using isFact⟩
          · cases rest
      · cases rest
  · cases rest

theorem linked_tracked {stack : List Activation} (linked : Linked S promise stack) :
    ∀ a ∈ stack, Tracked S a := by
  induction linked with
  | nil => simp
  | cons tracked _ _ _ ih => exact List.forall_mem_cons.mpr ⟨tracked, ih⟩

theorem respected_of_kept (wellFormed : S.program.WellFormed)
    (h : KeptAlways S (.running (a :: below) σ)) : Respected S a below σ where
  passed := by
    intro F inst rest callee vals G param v i data current effect defined member isParam isVal
    have tracked := linked_tracked h.1 a (List.mem_cons_self ..)
    have here := h.2 a (List.mem_cons_self ..)
    obtain ⟨data', body⟩ := definedData_eq_some.mp defined
    have nodup : G.params.Nodup := by
      obtain ⟨first, isFirst⟩ := List.exists_mem_of_ne_nil _ body
      cases isEntry : G.entryBlock with
      | none => simp [FunctionData.entryBlock, body] at isEntry
      | some entry =>
        rw [(wellFormed.function data').1.params_entry isEntry]
        exact (wellFormed.function data').1.blockParams_nodup entry
    have position : G.params.idxOf param = i := by
      obtain ⟨lt, rfl⟩ := List.getElem?_eq_some_iff.mp isParam
      exact nodup.idxOf_getElem i lt
    have site : ∃ args, (F.kind inst = some (.call callee args) ∨
        F.kind inst = some (.tailCall callee args)) ∧ S.ctx.operands F a.env args = some vals := by
      rcases effect with effect | effect
      · obtain ⟨args, kind, operands⟩ := kind_of_call effect
        exact ⟨args, .inl kind, operands⟩
      · obtain ⟨args, kind, operands⟩ := kind_of_tailCall effect
        exact ⟨args, .inr kind, operands⟩
    obtain ⟨args, kind, operands⟩ := site
    exact passed_nonneg wellFormed tracked here data current kind operands defined member
      (position ▸ isVal)
  computed := by
    intro b F inst v member data isFact bound
    obtain ⟨entry, -, sound⟩ :=
      facts_sound wellFormed (linked_tracked h.1 b member) (h.2 b member) data
    exact sound.member (proves_of_mem isFact) bound
  folded := by
    intro F inst rest target args effect data current isFold executed
    obtain ⟨cond, t, tArgs, x, bound, kind, isLt, isZero, isFact⟩ := mem_folds isFold
    obtain ⟨entry, basis, sound⟩ := facts_sound wellFormed
      (linked_tracked h.1 a (List.mem_cons_self ..)) (h.2 a (List.mem_cons_self ..)) data
    obtain ⟨d, found⟩ := exec_isSome executed
    have isBranch : d.kind = .branch cond t tArgs target args := by
      simpa [FunctionData.kind, found] using kind
    cases executes_of_exec found executed with
    | branch kind' decided operands =>
      cases isBranch.symm.trans kind'
      obtain ⟨ty, condData⟩ := kindIn_eq_some isLt
      rw [operand_eq_env condData rfl] at decided
      obtain rfl := sound.guard isLt isZero (proves_of_mem isFact) decided
      exact ⟨_, operands, rfl⟩
    | pure computed =>
      rw [Ctx.pureVal, isBranch] at computed
      cases computed
    | jump kind' _ | retVoid kind' | ret kind' _ | alloc kind' | store kind' _ _ _ _
    | memZero kind' _ _ _ | load kind' _ _ | call kind' _ | tailCall kind' _ =>
      cases isBranch.symm.trans kind'

theorem linked_initial (wellFormed : S.program.WellFormed) {args : List Val}
    (started : S.initial f args σ = some s)
    (trusted : promise → f ∈ nonnegPreservingFunctions S.program ∧ ∀ v ∈ args, Nonneg v) :
    Kept S promise s := by
  simp only [Setting.initial, Option.bind_eq_some_iff, Option.map_eq_some_iff] at started
  obtain ⟨F, data, ⟨c, σ'⟩, invoked, rfl⟩ := started
  have started := started_of_invoke invoked
  refine .cons (tracked_start data started) (fun promised => ?_) (by simp) .nil
  exact trusted_start wellFormed data started (trusted promised).1 (trusted promised).2

/-- A summarised function returns no negative `i32` from an orderly call with
non-negative arguments, and in an orderly run of the program the parameters that
are always non-negative, the facts and the folded branches are what the pass
takes them for. -/
theorem summaries_sound (wellFormed : S.program.WellFormed) (closed : S.program.Closed)
    (builtin : BuiltinOnly S.program) :
    (∀ f args (σ : Shared World) s n v σ', f ∈ nonnegPreservingFunctions S.program →
      (∀ arg ∈ args, Nonneg arg) → S.initial f args σ = some s →
      (∀ k u, k < n → S.run k s = some u → Orderly S u) →
      S.run n s = some (.finished (some v) σ') → Nonneg v) ∧
    (∀ world s n a below σ, S.start world = some s →
      (∀ k u, k < n → S.run k s = some u → Orderly S u) →
      S.run n s = some (.running (a :: below) σ) → Respected S a below σ) := by
  constructor
  · intro f args σ s n v σ' member nonneg started orderly ran
    have initial : Kept S True s := linked_initial wellFormed started fun _ => ⟨member, nonneg⟩
    have kept : Kept S True (.finished (some v) σ') :=
      Setting.run_invariant (fun kept orderly stepped =>
        kept_step wellFormed builtin kept orderly stepped)
        initial orderly ran
    exact kept trivial
  · intro world s n a below σ started orderly ran
    have initial : KeptAlways S s := by
      obtain ⟨main, isMain, started⟩ := Option.bind_eq_some_iff.mp started
      refine ⟨linked_initial wellFormed started False.elim, ?_⟩
      simp only [Setting.initial, Option.bind_eq_some_iff, Option.map_eq_some_iff] at started
      obtain ⟨F, data, ⟨c, σ'⟩, invoked, rfl⟩ := started
      simp only [List.mem_singleton, forall_eq]
      refine alwaysHolds_start wellFormed data (closed.main isMain) (started_of_invoke invoked) ?_
      intro param _ v isVal
      simp at isVal
    refine respected_of_kept wellFormed (Setting.run_invariant ?_ initial orderly ran)
    intro s t kept orderly stepped
    exact keptAlways_step wellFormed closed builtin kept orderly stepped

/-! ## Two programs -/

/-- `g(n)` returns -1. -/
def minusOne : Listing where
  retTy := .int32
  name := "g"
  paramsTy := [.int32]
  layout := [(0, [2])]
  insts := [(0, ⟨.int32, .blockArgRef 0⟩), (1, ⟨.int32, .integer (-1)⟩),
    (2, ⟨.unit, .ret (some 1)⟩)]
  nextInst := 3
  blockParams := [(0, [0])]
  nextBlock := 1

/-- `f(n)` tail-calls `g(n)`. -/
def forwards : Listing where
  retTy := .int32
  name := "f"
  paramsTy := [.int32]
  layout := [(0, [1])]
  insts := [(0, ⟨.int32, .blockArgRef 0⟩), (1, ⟨.unit, .tailCall 0 [0]⟩)]
  nextInst := 2
  blockParams := [(0, [0])]
  nextBlock := 1

/-- `f(n)` returns `n % 7`. -/
def remainder : Listing where
  retTy := .int32
  name := "f"
  paramsTy := [.int32]
  layout := [(0, [2, 3])]
  insts := [(0, ⟨.int32, .blockArgRef 0⟩), (1, ⟨.int32, .integer 7⟩),
    (2, ⟨.int32, .binary .rem 0 1⟩), (3, ⟨.unit, .ret (some 2)⟩)]
  nextInst := 4
  blockParams := [(0, [0])]
  nextBlock := 1

/-- `main` calls `f(0)` and returns 1 when the result is negative, else 0. -/
def guarded : Listing where
  retTy := .int32
  name := "main"
  paramsTy := []
  layout := [(0, [2, 3, 4]), (1, [5]), (2, [6])]
  insts := [(0, ⟨.int32, .integer 0⟩), (1, ⟨.int32, .integer 1⟩),
    (2, ⟨.int32, .call 1 [0]⟩), (3, ⟨.int32, .binary .lt 2 0⟩), (4, ⟨.unit, .branch 3 1 [] 2 []⟩),
    (5, ⟨.unit, .ret (some 1)⟩), (6, ⟨.unit, .ret (some 0)⟩)]
  nextInst := 7
  blockParams := []
  nextBlock := 3

def forwarding : Program := .ofListings [minusOne, forwards, guarded] [] 2

def reducing : Program := .ofListings [minusOne, remainder, guarded] [] 2

theorem builtinOnly_ofListings {listings : List Listing} {globals : List (Inst × InstData)}
    {main : Function} (h : listings.all (·.name ≠ mulmodHelper) = true) :
    BuiltinOnly (.ofListings listings globals main) := by
  intro f F data isBuiltin
  obtain ⟨L, listed, rfl⟩ := Program.funcData_ofListings data
  have := List.all_eq_true.mp h L (List.mem_of_getElem? listed)
  exact absurd isBuiltin (of_decide_eq_true this)

/-- The value `g` returns leaves `f` through a tail call, so `f` is summarised as
returning non-negative values, and the branch of `main` is folded to the arm the
run does not take. -/
theorem summaries_miss_tailCall :
    forwarding.WellFormed ∧ forwarding.Closed ∧ BuiltinOnly forwarding ∧
      1 ∈ nonnegPreservingFunctions forwarding ∧
      (∃ σ', (Setting.closed forwarding).Returns 1 [.int 0] (.initial forwarding)
        (some (.int (-1))) σ') ∧
      folds forwarding 2 guarded.toFunctionData = [(4, 2, [])] ∧
      ∃ σ', (Setting.closed forwarding).Returns 2 [] (.initial forwarding) (some (.int 1)) σ' := by
  have call : (Setting.closed forwarding).evalCall 20 1 [.int 0] (.initial forwarding) =
      some (some (.int (-1))) := by decide +kernel
  have whole : (Setting.closed forwarding).evalCall 20 2 [] (.initial forwarding) =
      some (some (.int 1)) := by decide +kernel
  exact ⟨Program.wellFormed_ofListings (by decide +kernel),
    Program.closed_ofListings (by decide +kernel), builtinOnly_ofListings (by decide +kernel),
    by decide +kernel, Setting.returns_of_evalCall call, by decide +kernel,
    Setting.returns_of_evalCall whole⟩

/-- No instruction of this kind can make a run disorderly. -/
def isPlain (P : Program) (F : FunctionData) : InstKind → Bool
  | .binary op _ _ => op ≠ .sar
  | .tailCall .. => false
  | .jump target _ => F.entryBlock ≠ some target
  | .branch _ t _ e _ => F.entryBlock ≠ some t && F.entryBlock ≠ some e
  | .call callee _ => (P.funcData callee).all (·.name ≠ mulmodHelper)
  | _ => true

/-- The runs of a program of plain instructions are orderly. -/
theorem orderly_of_plain (plain : ∀ f F inst data, S.program.funcData f = some F →
    F.insts inst = some data → isPlain S.program F data.kind = true) (s : Setting.State World) :
    Orderly S s := by
  match s with
  | .finished .. => trivial
  | .running [] _ => trivial
  | .running (a :: below) σ =>
    intro F inst rest data current
    refine ⟨?_, ?_, ?_, ?_⟩
    · intro lhs rhs base kind _ _
      obtain ⟨d, found, isSar⟩ := Option.map_eq_some_iff.mp kind
      have := plain _ F inst d data found
      simp [isSar, isPlain] at this
    · intro target vals effect isEntry
      obtain ⟨d, found⟩ := exec_isSome effect
      have := plain _ F inst d data found
      cases executes_of_exec found effect with
      | jump kind _ => simp [kind, isPlain, isEntry] at this
      | branch kind _ _ =>
        rw [kind] at this
        simp only [isPlain, ne_eq, Bool.and_eq_true, decide_eq_true_eq] at this
        split at isEntry
        · exact this.1 isEntry
        · exact this.2 isEntry
    · intro callee vals G effect data' isBuiltin
      obtain ⟨d, found⟩ := exec_isSome effect
      have := plain _ F inst d data found
      cases executes_of_exec found effect with
      | call kind _ => simp [kind, isPlain, data', isBuiltin] at this
    · intro callee vals effect _
      obtain ⟨d, found⟩ := exec_isSome effect
      have := plain _ F inst d data found
      cases executes_of_exec found effect with
      | tailCall kind _ => simp [kind, isPlain] at this

/-- For the remainder the summary is right: `f` is in it, `f(5)` is not negative,
and the folded branch of `main` is what a run takes. -/
theorem summaries_sound_reducing :
    1 ∈ nonnegPreservingFunctions reducing ∧
      (∃ v σ', (Setting.closed reducing).Returns 1 [.int 5] (.initial reducing) (some v) σ' ∧
        Nonneg v) ∧
      folds reducing 2 guarded.toFunctionData = [(4, 2, [])] ∧
      ∀ s n a below σ, (Setting.closed reducing).start () = some s →
        (Setting.closed reducing).run n s = some (.running (a :: below) σ) →
          Respected (Setting.closed reducing) a below σ := by
  have wellFormed : (Setting.closed reducing).program.WellFormed :=
    Program.wellFormed_ofListings (by decide +kernel)
  have closed : (Setting.closed reducing).program.Closed :=
    Program.closed_ofListings (by decide +kernel)
  have builtin : BuiltinOnly (Setting.closed reducing).program :=
    builtinOnly_ofListings (by decide +kernel)
  have orderly := orderly_of_plain (S := Setting.closed reducing) (by
    intro f F inst data isData found
    obtain ⟨L, listed, rfl⟩ := Program.funcData_ofListings isData
    have checked : [minusOne, remainder, guarded].all (fun L => L.insts.all fun entry =>
      isPlain reducing L.toFunctionData entry.2.kind) = true := by decide +kernel
    have := List.all_eq_true.mp checked L (List.mem_of_getElem? listed)
    exact List.all_eq_true.mp this _ (mem_of_lookup found))
  have call : (Setting.closed reducing).evalCall 20 1 [.int 5] (.initial reducing) =
      some (some (.int 5)) := by decide +kernel
  have member : 1 ∈ nonnegPreservingFunctions reducing := by decide +kernel
  obtain ⟨ofCall, ofRun⟩ := summaries_sound wellFormed closed builtin
  refine ⟨member, ?_, by decide +kernel, ?_⟩
  · obtain ⟨σ', s, started, n, ran⟩ := Setting.returns_of_evalCall call
    have args : ∀ arg ∈ [Val.int 5], Nonneg arg := by
      intro arg isArg
      obtain rfl := List.mem_singleton.mp isArg
      exact .of_int (by decide)
    exact ⟨.int 5, σ', ⟨s, started, n, ran⟩, ofCall 1 [.int 5] (.initial reducing) s n (.int 5) σ'
      member args started (fun _ u _ _ => orderly u) ran⟩
  · intro s n a below σ started ran
    exact ofRun () s n a below σ started (fun _ u _ _ => orderly u) ran

end AnonCompiler.Opt.ReturnSummary
