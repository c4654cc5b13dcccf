import AnonCompiler.Ir.ProgramRun

/-!
# Replacing one function

A pass that rewrites one function is judged inside whole programs: the original
program and the program with the function replaced run side by side.  Memory,
outside world and frames are the same on both sides, and so are the activations
of all other functions.  The activations of the rewritten function are related
by a relation of the pass's own, and it is enough to look at one activation:
every step of the original has to be answered, after steps that only compute or
jump, by a step with the same effect (`LocalSim`).

The comparison can be made finer than memory and results: a step shows the
instruction it executes and the effect it has, for all instructions that are
watched, and both programs show the same.
-/

set_option autoImplicit false

namespace AnonCompiler.Ir

/-! ## Watching a run -/

/-- An executed instruction and the effect it had. -/
structure Event where
  func : Function
  inst : Inst
  effect : Effect

/-- What the execution of an instruction shows. -/
def observe (watch : Function → Inst → Bool) (a : Activation) (inst : Inst) (e : Effect) :
    List Event :=
  if watch a.func inst then [⟨a.func, inst, e⟩] else []

namespace Setting

variable {World : Type} (S : Setting World) (watch : Function → Inst → Bool)

/-- What the next step shows. -/
def shown : State World → List Event
  | .running (a :: _) σ =>
    match S.program.funcData a.func, a.rest with
    | some F, inst :: _ => ((exec S.ctx F a σ.mem inst).map (observe watch a inst)).getD []
    | _, _ => []
  | _ => []

/-- What the next steps show. -/
def events : Nat → State World → List Event
  | 0, _ => []
  | count + 1, s =>
    match S.step s with
    | some next => S.shown watch s ++ events count next
    | none => []

/-- A finite run from `s` to `t` that shows `es`. -/
def Takes (s : State World) (es : List Event) (t : State World) : Prop :=
  ∃ count, S.run count s = some t ∧ S.events watch count s = es

variable {S watch} {s t u : State World} {es es' : List Event}

theorem Takes.refl (s : State World) : S.Takes watch s [] s := ⟨0, rfl, rfl⟩

theorem Takes.step_trans (stepped : S.step s = some t) (later : S.Takes watch t es u) :
    S.Takes watch s (S.shown watch s ++ es) u := by
  obtain ⟨count, ran, shows⟩ := later
  exact ⟨count + 1, by simp [run, stepped, ran], by simp [events, stepped, shows]⟩

theorem Takes.single (stepped : S.step s = some t) : S.Takes watch s (S.shown watch s) t := by
  simpa using Takes.step_trans stepped (.refl t)

theorem Takes.trans (first : S.Takes watch s es t) (second : S.Takes watch t es' u) :
    S.Takes watch s (es ++ es') u := by
  obtain ⟨count, ran, rfl⟩ := first
  induction count generalizing s with
  | zero =>
    obtain rfl := Option.some.inj ran
    exact second
  | succ count ih =>
    obtain ⟨next, stepped, ran⟩ := Option.bind_eq_some_iff.mp ran
    have later := Takes.step_trans stepped (ih ran)
    simpa [events, stepped] using later

theorem shown_eq {a : Activation} {below : List Activation} {σ : Shared World} {F : FunctionData}
    {inst : Inst} {rest : List Inst} {e : Effect} (data : S.program.funcData a.func = some F)
    (current : a.rest = inst :: rest) (effect : exec S.ctx F a σ.mem inst = some e) :
    S.shown watch (.running (a :: below) σ) = observe watch a inst e := by
  simp [shown, data, current, effect]

end Setting

/-! ## Moves, from their effects -/

variable {World : Type} {F : FunctionData} {a : Activation} {inst : Inst} {rest : List Inst}
  {m : Move} {S : Setting World} {σ σ' : Shared World} {s : Setting.State World}

theorem move_of_moves (data : S.program.funcData a.func = some F) (current : a.rest = inst :: rest)
    (moves : Moves S F a σ inst m σ') : S.move a σ = some (m, σ') := by
  cases moves with
  | value effect | write effect | ret effect => simp [Setting.move, data, current, effect]
  | goto effect entered => simp [Setting.move, data, current, effect, entered]
  | callExternal effect data' noBody answered resumed =>
    simp [Setting.move, data, current, effect, Setting.moveCall, data', noBody, answered, resumed]
  | call effect data' body invoked =>
    simp [Setting.move, data, current, effect, Setting.moveCall, data', body, invoked]
  | tailSelf effect started =>
    simp [Setting.move, data, current, effect, Setting.moveTailCall, started]
  | tailExternal effect other data' noBody answered =>
    simp [Setting.move, data, current, effect, Setting.moveTailCall, other, data', noBody, answered]
  | tailCall effect other data' body invoked =>
    simp [Setting.move, data, current, effect, Setting.moveTailCall, other, data', body, invoked]

theorem Setting.step_of_moves {below : List Activation} (data : S.program.funcData a.func = some F)
    (current : a.rest = inst :: rest) (moves : Moves S F a σ inst m σ') :
    S.step (.running (a :: below) σ) = S.apply a below (m, σ') := by
  simp [Setting.step, move_of_moves data current moves]

/-! ## Steps of one activation that only compute or jump -/

/-- Steps that change neither the memory nor the stack, with what they show. -/
inductive Quiet (watch : Function → Inst → Bool) (X : Ctx) (F : FunctionData) (m : Mem) :
    Activation → List Event → Activation → Prop where
  | refl (a : Activation) : Quiet watch X F m a [] a
  | value {a b : Activation} {inst : Inst} {rest : List Inst} {v : Val} {es : List Event}
      (current : a.rest = inst :: rest) (effect : exec X F a m inst = some (.value v))
      (later : Quiet watch X F m (a.define inst v) es b) :
      Quiet watch X F m a (observe watch a inst (.value v) ++ es) b
  | goto {a a' b : Activation} {inst : Inst} {rest : List Inst} {target : BasicBlock}
      {args : List Val} {es : List Event} (current : a.rest = inst :: rest)
      (effect : exec X F a m inst = some (.goto target args))
      (entered : a.enterBlock F target args = some a') (later : Quiet watch X F m a' es b) :
      Quiet watch X F m a (observe watch a inst (.goto target args) ++ es) b

namespace Quiet

variable {watch : Function → Inst → Bool} {X : Ctx} {F : FunctionData} {m : Mem}
  {a b c : Activation} {es es' : List Event}

variable {inst : Inst} {rest : List Inst}

theorem func (h : Quiet watch X F m a es b) : b.func = a.func ∧ b.frame = a.frame := by
  induction h with
  | refl => exact ⟨rfl, rfl⟩
  | value _ _ _ ih => exact ih
  | goto _ _ entered _ ih =>
    obtain ⟨-, insts, -, rfl⟩ := Activation.enterBlock_eq_some.mp entered
    exact ih

theorem single_value {v : Val} (current : a.rest = inst :: rest)
    (effect : exec X F a m inst = some (.value v)) :
    Quiet watch X F m a (observe watch a inst (.value v)) (a.define inst v) := by
  simpa using Quiet.value current effect (.refl _)

theorem single_goto {target : BasicBlock} {args : List Val} (current : a.rest = inst :: rest)
    (effect : exec X F a m inst = some (.goto target args))
    (entered : a.enterBlock F target args = some b) :
    Quiet watch X F m a (observe watch a inst (.goto target args)) b := by
  simpa using Quiet.goto current effect entered (.refl _)

theorem trans (first : Quiet watch X F m a es b) (second : Quiet watch X F m b es' c) :
    Quiet watch X F m a (es ++ es') c := by
  induction first with
  | refl => exact second
  | value current effect _ ih =>
    rw [List.append_assoc]
    exact .value current effect (ih second)
  | goto current effect entered _ ih =>
    rw [List.append_assoc]
    exact .goto current effect entered (ih second)

theorem takes {World : Type} {S : Setting World} {below : List Activation} {σ : Shared World}
    (h : Quiet watch S.ctx F σ.mem a es b) (data : S.program.funcData a.func = some F) :
    S.Takes watch (.running (a :: below) σ) es (.running (b :: below) σ) := by
  induction h with
  | refl a => exact .refl _
  | @value a b inst rest v es current effect _ ih =>
    have stepped : S.step (.running (a :: below) σ) =
        some (.running (a.define inst v :: below) σ) :=
      Setting.step_of_moves data current (.value effect)
    have shows : S.shown watch (.running (a :: below) σ) = observe watch a inst (.value v) :=
      Setting.shown_eq data current effect
    rw [← shows]
    exact .step_trans stepped (ih data)
  | @goto a a' b inst rest target args es current effect entered _ ih =>
    have stepped : S.step (.running (a :: below) σ) = some (.running (a' :: below) σ) :=
      Setting.step_of_moves data current (.goto effect entered)
    have shows : S.shown watch (.running (a :: below) σ) =
        observe watch a inst (.goto target args) :=
      Setting.shown_eq data current effect
    rw [← shows]
    obtain ⟨-, insts, -, rfl⟩ := Activation.enterBlock_eq_some.mp entered
    exact .step_trans stepped (ih data)

end Quiet

/-! ## Answering the steps of one activation -/

section LocalSim

variable (watch : Function → Inst → Bool) (X : Ctx) (F F' : FunctionData)
  (R : Activation → Activation → Prop)

/-- After quiet steps the second activation has the same effect, and shows the
same. -/
def Repeats (a a' : Activation) (m : Mem) (inst : Inst) (e : Effect)
    (after : Activation → Prop) : Prop :=
  ∃ a₁ inst₁ rest₁, Quiet watch X F' m a' [] a₁ ∧ a₁.rest = inst₁ :: rest₁ ∧
    exec X F' a₁ m inst₁ = some e ∧ observe watch a₁ inst₁ e = observe watch a inst e ∧ after a₁

/-- Both activations go on in the same way, whatever value comes back. -/
def Resumes (a a' : Activation) : Prop :=
  ∀ value b, a.resume F value = some b → ∃ b', a'.resume F' value = some b' ∧ R b b'

/-- The second activation answers an effect of the first. -/
def Answers (a a' : Activation) (m : Mem) (inst : Inst) : Effect → Prop
  | .value v => ∃ b', Quiet watch X F' m a' (observe watch a inst (.value v)) b' ∧
      R (a.define inst v) b'
  | .goto target args => ∀ b, a.enterBlock F target args = some b →
      ∃ b', Quiet watch X F' m a' (observe watch a inst (.goto target args)) b' ∧ R b b'
  | .write m' => Repeats watch X F' a a' m inst (.write m') fun a₁ => R a.next a₁.next
  | .call callee args => Repeats watch X F' a a' m inst (.call callee args) fun a₁ =>
    Resumes F F' R a a₁
  | .tailCall callee args => Repeats watch X F' a a' m inst (.tailCall callee args) fun _ => True
  | .ret value => Repeats watch X F' a a' m inst (.ret value) fun _ => True

/-- `F'` answers every step of `F`, under a condition on the state before the
step. -/
structure LocalSim (f : Function) (ok : Activation → Mem → Prop) : Prop where
  func : ∀ {a a'}, R a a' → a.func = f ∧ a'.func = f ∧ a'.frame = a.frame
  start : ∀ {frame args a}, Activation.start F f frame args = some a →
    ∃ a', Activation.start F' f frame args = some a' ∧ R a a'
  alloc : ∀ inst, Mem.allocSize F' inst = Mem.allocSize F inst
  body : F.layout ≠ []
  body' : F'.layout ≠ []
  step : ∀ {a a' m inst rest e}, R a a' → ok a m → a.rest = inst :: rest →
    exec X F a m inst = some e → Answers watch X F F' R a a' m inst e

end LocalSim

/-! ## Whole programs -/

def Program.withFunction (P : Program) (f : Function) (F' : FunctionData) : Program :=
  { P with funcs := P.funcs.set f F' }

def Setting.withFunction {World : Type} (S : Setting World) (f : Function) (F' : FunctionData) :
    Setting World :=
  { S with program := S.program.withFunction f F' }

section WithFunction

variable {World : Type} {S : Setting World} {f : Function} {F F' : FunctionData}

theorem funcData_withFunction (data : S.program.funcData f = some F) :
    (S.withFunction f F').program.funcData f = some F' := by
  have inside : f < S.program.funcs.length := (List.getElem?_eq_some_iff.mp data).1
  simp [Setting.withFunction, Program.withFunction, Program.funcData, inside]

theorem funcData_withFunction_ne {g : Function} (other : g ≠ f) :
    (S.withFunction f F').program.funcData g = S.program.funcData g := by
  simp [Setting.withFunction, Program.withFunction, Program.funcData,
    List.getElem?_set_ne other.symm]

@[simp] theorem ctx_withFunction : (S.withFunction f F').ctx = S.ctx := rfl

end WithFunction

section Coupled

variable {World : Type} (S : Setting World) (f : Function) (F F' : FunctionData)
  (R : Activation → Activation → Prop)

/-- Activations that wait for a value. -/
inductive Stacked : List Activation → List Activation → Prop where
  | nil : Stacked [] []
  | other {a : Activation} {below below' : List Activation} (other : a.func ≠ f)
      (others : Stacked below below') : Stacked (a :: below) (a :: below')
  | here {a a' : Activation} {below below' : List Activation} (func : a.func = f)
      (func' : a'.func = f) (resumes : Resumes F F' R a a') (others : Stacked below below') :
      Stacked (a :: below) (a' :: below')

/-- Activations on top of the stack. -/
inductive Tops : Activation → Activation → Prop where
  | other {a : Activation} (other : a.func ≠ f) : Tops a a
  | here {a a' : Activation} (related : R a a') : Tops a a'

/-- States of the two programs. -/
inductive Coupled : Setting.State World → Setting.State World → Prop where
  | running {a a' : Activation} {below below' : List Activation} {σ : Shared World}
      (top : Tops f R a a') (stacked : Stacked f F F' R below below') :
      Coupled (.running (a :: below) σ) (.running (a' :: below') σ)
  | finished (value : Option Val) (σ : Shared World) :
      Coupled (.finished value σ) (.finished value σ)

/-- The condition holds before the next step, if that is one of `f`. -/
def Allowed (ok : Activation → Mem → Prop) : Setting.State World → Prop
  | .running (a :: _) σ => a.func = f → ok a σ.mem
  | _ => True

variable {S f F F' R} {watch : Function → Inst → Bool} {ok : Activation → Mem → Prop}

variable {callee : Function} {G : FunctionData} {args : List Val} {σ : Shared World}
  {below below' : List Activation} {t s : Setting.State World} {a : Activation}

section

variable (sim : LocalSim watch S.ctx F F' R f ok)
include sim

theorem LocalSim.enter (m : Mem) (func : Function) (frame : Nat) :
    m.enter F' func frame = m.enter F func frame := by
  simp [Mem.enter, sim.alloc]

/-- Entering a function on both sides. -/
theorem LocalSim.invoke (data : S.program.funcData f = some F) {σ' : Shared World} {c : Activation}
    (isData : S.program.funcData callee = some G) (body : G.layout ≠ [])
    (invoked : invoke callee G args σ = some (c, σ')) :
    ∃ G' c', (S.withFunction f F').program.funcData callee = some G' ∧ G'.layout ≠ [] ∧
      Ir.invoke callee G' args σ = some (c', σ') ∧ Tops f R c c' := by
  obtain ⟨c₁, started, same⟩ := Option.map_eq_some_iff.mp invoked
  cases same
  by_cases isF : callee = f
  · subst isF
    obtain rfl := Option.some.inj (data.symm.trans isData)
    obtain ⟨c', started', related⟩ := sim.start started
    refine ⟨F', c', funcData_withFunction data, sim.body', ?_, .here related⟩
    simp [Ir.invoke, started', sim.enter]
  · refine ⟨G, c, by rw [funcData_withFunction_ne isF, isData], body, invoked, .other ?_⟩
    obtain ⟨entry, insts, -, -, -, rfl⟩ := Activation.start_eq_some.mp started
    exact isF

/-- Functions without a body are the same on both sides. -/
theorem LocalSim.declared (data : S.program.funcData f = some F)
    (isData : S.program.funcData callee = some G) (noBody : G.layout = []) :
    (S.withFunction f F').program.funcData callee = some G := by
  by_cases isF : callee = f
  · subst isF
    obtain rfl := Option.some.inj (data.symm.trans isData)
    exact absurd noBody sim.body
  · rw [funcData_withFunction_ne isF, isData]

end

theorem Stacked.returnTo (stacked : Stacked f F F' R below below')
    (data : S.program.funcData f = some F) {value : Option Val}
    (returned : S.returnTo below value σ = some t) :
    ∃ t', (S.withFunction f F').returnTo below' value σ = some t' ∧ Coupled f F F' R t t' := by
  cases stacked with
  | nil =>
    obtain rfl := Option.some.inj returned
    exact ⟨_, rfl, .finished value σ⟩
  | @other a below below' other others =>
    simp only [Setting.returnTo] at returned
    split at returned
    · cases returned
    · next G isData =>
        obtain ⟨b, resumed, rfl⟩ := Option.map_eq_some_iff.mp returned
        refine ⟨.running (b :: below') σ, ?_, .running (.other ?_) others⟩
        · simp [Setting.returnTo, funcData_withFunction_ne other, isData, resumed]
        · obtain ⟨inst, rest, d, -, -, rfl⟩ := Activation.resume_eq_some.mp resumed
          exact other
  | @here a a' below below' func func' resumes others =>
    simp only [Setting.returnTo, func, data] at returned
    obtain ⟨b, resumed, rfl⟩ := Option.map_eq_some_iff.mp returned
    obtain ⟨b', resumed', related⟩ := resumes value b resumed
    refine ⟨.running (b' :: below') σ, ?_, .running (.here related) others⟩
    simp [Setting.returnTo, func', funcData_withFunction data, resumed']

section

variable (sim : LocalSim watch S.ctx F F' R f ok) (data : S.program.funcData f = some F)
include sim data

/-- The state after a step of another function. -/
theorem LocalSim.step_other (other : a.func ≠ f) (stacked : Stacked f F F' R below below')
    (stepped : S.step (.running (a :: below) σ) = some t) :
    ∃ t', (S.withFunction f F').step (.running (a :: below') σ) = some t' ∧
      Coupled f F F' R t t' := by
  simp only [Setting.step, Option.bind_eq_some_iff] at stepped
  obtain ⟨⟨m, σ'⟩, moved, applied⟩ := stepped
  obtain ⟨G, inst, rest, isData, current, moves⟩ := moves_of_move moved
  have isData' : (S.withFunction f F').program.funcData a.func = some G := by
    rw [funcData_withFunction_ne other, isData]
  have stay : ∀ {b σ₁}, b.func = a.func → Moves (S.withFunction f F') G a σ inst (.stay b) σ₁ →
      some (Setting.State.running (b :: below) σ₁) = some t →
      ∃ t', (S.withFunction f F').step (.running (a :: below') σ) = some t' ∧
        Coupled f F F' R t t' := by
    intro b σ₁ func moves' same
    obtain rfl := Option.some.inj same
    exact ⟨_, Setting.step_of_moves isData' current moves',
      .running (.other (func ▸ other)) stacked⟩
  cases moves with
  | value effect =>
    refine stay ?_ (.value effect) applied
    rfl
  | write effect =>
    refine stay ?_ (.write effect) applied
    rfl
  | goto effect entered =>
    refine stay ?_ (.goto effect entered) applied
    obtain ⟨-, insts, -, rfl⟩ := Activation.enterBlock_eq_some.mp entered
    rfl
  | callExternal effect isData₁ noBody answered resumed =>
    refine stay ?_ (.callExternal effect (sim.declared data isData₁ noBody) noBody answered resumed)
      applied
    obtain ⟨inst', rest', d, -, -, rfl⟩ := Activation.resume_eq_some.mp resumed
    rfl
  | call effect isData₁ body invoked =>
    obtain rfl := Option.some.inj applied
    obtain ⟨G', c', isData₂, body', invoked', top⟩ := sim.invoke data isData₁ body invoked
    exact ⟨_, Setting.step_of_moves isData' current (.call effect isData₂ body' invoked'),
      .running top (.other other stacked)⟩
  | tailSelf effect started =>
    obtain rfl := Option.some.inj applied
    refine ⟨_, Setting.step_of_moves isData' current (.tailSelf effect started),
      .running (.other ?_) stacked⟩
    obtain ⟨entry, insts, -, -, -, rfl⟩ := Activation.start_eq_some.mp started
    exact other
  | tailExternal effect notSelf isData₁ noBody answered =>
    obtain ⟨t', returned, coupled⟩ := stacked.returnTo data applied
    refine ⟨t', ?_, coupled⟩
    rw [Setting.step_of_moves isData' current
      (.tailExternal effect notSelf (sim.declared data isData₁ noBody) noBody answered)]
    exact returned
  | tailCall effect notSelf isData₁ body invoked =>
    obtain rfl := Option.some.inj applied
    obtain ⟨G', c', isData₂, body', invoked', top⟩ := sim.invoke data isData₁ body invoked
    exact ⟨_, Setting.step_of_moves isData' current
      (.tailCall effect notSelf isData₂ body' invoked'), .running top stacked⟩
  | ret effect =>
    obtain ⟨t', returned, coupled⟩ := stacked.returnTo data applied
    refine ⟨t', ?_, coupled⟩
    rw [Setting.step_of_moves isData' current (.ret effect)]
    exact returned

/-- A step of `f` is answered. -/
theorem LocalSim.step_here {a' : Activation} (related : R a a') (allowed : ok a σ.mem)
    (stacked : Stacked f F F' R below below')
    (stepped : S.step (.running (a :: below) σ) = some t) :
    ∃ t', (S.withFunction f F').Takes watch (.running (a' :: below') σ)
        (S.shown watch (.running (a :: below) σ)) t' ∧ Coupled f F F' R t t' := by
  obtain ⟨func, func', frame⟩ := sim.func related
  simp only [Setting.step, Option.bind_eq_some_iff] at stepped
  obtain ⟨⟨m, σ'⟩, moved, applied⟩ := stepped
  obtain ⟨F₁, inst, rest, isData, current, moves⟩ := moves_of_move moved
  obtain rfl : F = F₁ := Option.some.inj (data.symm.trans (func ▸ isData))
  have data' : (S.withFunction f F').program.funcData a'.func = some F' := by
    rw [func', funcData_withFunction data]
  have shows : ∀ {e}, exec S.ctx F a σ.mem inst = some e →
      S.shown watch (.running (a :: below) σ) = observe watch a inst e := fun effect =>
    Setting.shown_eq isData current effect
  -- an effect the second activation repeats, and what the repeating step leads to
  have repeats : ∀ {e after}, exec S.ctx F a σ.mem inst = some e →
      Repeats watch S.ctx F' a a' σ.mem inst e after →
      (∀ a₁ inst₁ rest₁, a₁.func = f → a₁.frame = a.frame → a₁.rest = inst₁ :: rest₁ →
        exec S.ctx F' a₁ σ.mem inst₁ = some e → after a₁ →
        ∃ m' σ₁ t', Moves (S.withFunction f F') F' a₁ σ inst₁ m' σ₁ ∧
          (S.withFunction f F').apply a₁ below' (m', σ₁) = some t' ∧ Coupled f F F' R t t') →
      ∃ t', (S.withFunction f F').Takes watch (.running (a' :: below') σ)
        (S.shown watch (.running (a :: below) σ)) t' ∧ Coupled f F F' R t t' := by
    rintro e after effect ⟨a₁, inst₁, rest₁, quiet, current₁, effect₁, same, holds⟩ next
    obtain ⟨func₁, frame₁⟩ := quiet.func
    obtain ⟨m', σ₁, t', moves', applied', coupled⟩ :=
      next a₁ inst₁ rest₁ (func₁.trans func') (frame₁.trans frame) current₁ effect₁ holds
    refine ⟨t', ?_, coupled⟩
    have data₁ : (S.withFunction f F').program.funcData a₁.func = some F' := by
      rw [func₁, data']
    have stepped' : (S.withFunction f F').step (.running (a₁ :: below') σ) = some t' := by
      rw [Setting.step_of_moves data₁ current₁ moves', applied']
    have first : (S.withFunction f F').Takes watch (.running (a' :: below') σ) []
        (.running (a₁ :: below') σ) := Quiet.takes quiet data'
    have shows₁ : (S.withFunction f F').shown watch (.running (a₁ :: below') σ) =
        observe watch a₁ inst₁ e := Setting.shown_eq data₁ current₁ effect₁
    have second : (S.withFunction f F').Takes watch (.running (a₁ :: below') σ) _ t' :=
      .single stepped'
    rw [shows₁, same, ← shows effect] at second
    exact first.trans second
  cases moves with
  | value effect =>
    obtain rfl := Option.some.inj applied
    obtain ⟨b', quiet, related'⟩ := sim.step related allowed current effect
    rw [shows effect]
    exact ⟨_, Quiet.takes quiet data', .running (.here related') stacked⟩
  | goto effect entered =>
    obtain rfl := Option.some.inj applied
    obtain ⟨b', quiet, related'⟩ := sim.step related allowed current effect _ entered
    rw [shows effect]
    exact ⟨_, Quiet.takes quiet data', .running (.here related') stacked⟩
  | write effect =>
    obtain rfl := Option.some.inj applied
    refine repeats effect (sim.step related allowed current effect) ?_
    intro a₁ inst₁ rest₁ _ _ _ effect₁ related'
    exact ⟨_, _, _, .write effect₁, rfl, .running (.here related') stacked⟩
  | callExternal effect isData₁ noBody answered resumed =>
    obtain rfl := Option.some.inj applied
    refine repeats effect (sim.step related allowed current effect) ?_
    intro a₁ inst₁ rest₁ _ _ _ effect₁ resumes
    obtain ⟨b', resumed', related'⟩ := resumes _ _ resumed
    exact ⟨_, _, _, .callExternal effect₁ (sim.declared data isData₁ noBody) noBody
      answered resumed', rfl, .running (.here related') stacked⟩
  | call effect isData₁ body invoked =>
    obtain rfl := Option.some.inj applied
    refine repeats effect (sim.step related allowed current effect) ?_
    intro a₁ inst₁ rest₁ func₁ _ _ effect₁ resumes
    obtain ⟨G', c', isData₂, body', invoked', top⟩ := sim.invoke data isData₁ body invoked
    exact ⟨_, _, _, .call effect₁ isData₂ body' invoked', rfl,
      .running top (.here func func₁ resumes stacked)⟩
  | tailSelf effect started =>
    obtain rfl := Option.some.inj applied
    refine repeats effect (sim.step related allowed current effect) ?_
    intro a₁ inst₁ rest₁ func₁ frame₁ _ effect₁ _
    rw [func] at started effect₁
    obtain ⟨c', started', related'⟩ := sim.start started
    refine ⟨_, _, _, .tailSelf (func₁ ▸ effect₁) ?_, rfl, .running (.here related') stacked⟩
    rw [func₁, frame₁]
    exact started'
  | tailExternal effect notSelf isData₁ noBody answered =>
    refine repeats effect (sim.step related allowed current effect) ?_
    intro a₁ inst₁ rest₁ func₁ frame₁ _ effect₁ _
    obtain ⟨t', returned, coupled⟩ := stacked.returnTo data applied
    refine ⟨_, _, t', .tailExternal effect₁ ?_ (sim.declared data isData₁ noBody) noBody ?_,
      returned, coupled⟩
    · rw [func₁, ← func]
      exact notSelf
    · rw [func₁, ← func, frame₁]
      exact answered
  | tailCall effect notSelf isData₁ body invoked =>
    obtain rfl := Option.some.inj applied
    refine repeats effect (sim.step related allowed current effect) ?_
    intro a₁ inst₁ rest₁ func₁ frame₁ _ effect₁ _
    obtain ⟨G', c', isData₂, body', invoked', top⟩ := sim.invoke data isData₁ body invoked
    refine ⟨_, _, _, .tailCall effect₁ ?_ isData₂ body' ?_, rfl, .running top stacked⟩
    · rw [func₁, ← func]
      exact notSelf
    · rw [func₁, ← func, frame₁]
      exact invoked'
  | ret effect =>
    refine repeats effect (sim.step related allowed current effect) ?_
    intro a₁ inst₁ rest₁ func₁ frame₁ _ effect₁ _
    have released : σ.mem.release a₁.func a₁.frame = σ.mem.release a.func a.frame := by
      rw [func₁, frame₁, func]
    obtain ⟨t', returned, coupled⟩ := stacked.returnTo data applied
    refine ⟨_, _, t', .ret effect₁, ?_, coupled⟩
    rw [released]
    exact returned

/-- A run of the original program is answered by a run that shows the same. -/
theorem LocalSim.run {n : Nat} {s' : Setting.State World} (coupled : Coupled f F F' R s s')
    (allowed : ∀ k u, k < n → S.run k s = some u → Allowed f ok u) (ran : S.run n s = some t) :
    ∃ t', (S.withFunction f F').Takes watch s' (S.events watch n s) t' ∧ Coupled f F F' R t t' := by
  induction n generalizing s s' with
  | zero =>
    obtain rfl := Option.some.inj ran
    exact ⟨s', .refl s', coupled⟩
  | succ n ih =>
    obtain ⟨s₁, stepped, later⟩ := Option.bind_eq_some_iff.mp ran
    have answered : ∃ s₁', (S.withFunction f F').Takes watch s' (S.shown watch s) s₁' ∧
        Coupled f F F' R s₁ s₁' := by
      cases coupled with
      | finished => cases stepped
      | @running a a' below below' σ top stacked =>
        cases top with
        | other other =>
          obtain ⟨t', stepped', coupled⟩ := sim.step_other data other stacked stepped
          have single : (S.withFunction f F').Takes watch (.running (a :: below') σ) _ t' :=
            .single stepped'
          refine ⟨t', ?_, coupled⟩
          have same : (S.withFunction f F').shown watch (.running (a :: below') σ) =
              S.shown watch (.running (a :: below) σ) := by
            simp [Setting.shown, funcData_withFunction_ne other]
          rwa [same] at single
        | here related =>
          have here := allowed 0 _ (Nat.succ_pos n) rfl (sim.func related).1
          exact sim.step_here data related here stacked stepped
    obtain ⟨s₁', first, coupled₁⟩ := answered
    obtain ⟨t', rest, coupled'⟩ := ih coupled₁
      (fun k u lt reached => allowed (k + 1) u (Nat.succ_lt_succ lt)
        (by simp [Setting.run, stepped, reached])) later
    refine ⟨t', ?_, coupled'⟩
    have whole := first.trans rest
    simpa [Setting.events, stepped] using whole

/-- The programs start in states that belong together. -/
theorem LocalSim.initial {g : Function} (started : S.initial g args σ = some s) :
    ∃ s', (S.withFunction f F').initial g args σ = some s' ∧ Coupled f F F' R s s' := by
  simp only [Setting.initial, Option.bind_eq_some_iff, Option.map_eq_some_iff] at started
  obtain ⟨G, isData, ⟨c, σ'⟩, invoked, rfl⟩ := started
  have body : G.layout ≠ [] := by
    obtain ⟨c₁, entered, -⟩ := Option.map_eq_some_iff.mp invoked
    obtain ⟨entry, -, isEntry, -⟩ := Activation.start_eq_some.mp entered
    rintro noBody
    simp [FunctionData.entryBlock, noBody] at isEntry
  obtain ⟨G', c', isData', -, invoked', top⟩ := sim.invoke data isData body invoked
  exact ⟨_, by simp [Setting.initial, isData', invoked'], .running top .nil⟩

end

end Coupled

/-- The states have the same memory and outside world, and the same result when
they are final. -/
def Setting.State.Agrees {World : Type} : Setting.State World → Setting.State World → Prop
  | .running _ σ, .running _ σ' => σ' = σ
  | .finished value σ, .finished value' σ' => value' = value ∧ σ' = σ
  | _, _ => False

theorem Coupled.agrees {f : Function} {F' : FunctionData} {R : Activation → Activation → Prop}
    {s' : Setting.State World} (h : Coupled f F F' R s s') : s.Agrees s' := by
  cases h with
  | running => exact rfl
  | finished => exact ⟨rfl, rfl⟩

/-! ## Comparing two programs -/

/-- A run of one program, from a call of `g` on, has a counterpart in the other:
it shows the same and leads to the same memory, outside world and result. -/
def Setting.MatchedBy {World : Type} (S S' : Setting World) (watch : Function → Inst → Bool)
    (g : Function) (args : List Val) (σ : Shared World) (n : Nat)
    (s t : Setting.State World) : Prop :=
  ∃ s' t', S'.initial g args σ = some s' ∧ S'.Takes watch s' (S.events watch n s) t' ∧ t.Agrees t'

section Matched

variable {World : Type} {S S' : Setting World} {watch : Function → Inst → Bool} {g : Function}
  {args : List Val} {σ : Shared World} {n : Nat} {s t : Setting.State World}

theorem LocalSim.matchedBy {f : Function} {F F' : FunctionData} {R : Activation → Activation → Prop}
    {ok : Activation → Mem → Prop} (sim : LocalSim watch S.ctx F F' R f ok)
    (data : S.program.funcData f = some F) (started : S.initial g args σ = some s)
    (allowed : ∀ k u, k < n → S.run k s = some u → Allowed f ok u) (ran : S.run n s = some t) :
    S.MatchedBy (S.withFunction f F') watch g args σ n s t := by
  obtain ⟨s', started', coupled⟩ := sim.initial data started
  obtain ⟨t', takes, coupled'⟩ := sim.run data coupled allowed ran
  exact ⟨s', t', started', takes, coupled'.agrees⟩

/-- Programs that return different values do not match. -/
theorem not_matchedBy {v v' : Option Val} {σ₁ σ₂ : Shared World} (differ : v' ≠ v)
    (returns' : S'.Returns g args σ v' σ₂) :
    ¬ S.MatchedBy S' watch g args σ n s (.finished v σ₁) := by
  rintro ⟨s', t', started', ⟨count, ran', -⟩, agrees⟩
  cases t' with
  | running => exact agrees
  | finished v₁ σ₃ =>
    obtain ⟨rfl, -⟩ := agrees
    have returns₁ : S'.Returns g args σ v₁ σ₃ := ⟨s', started', count, ran'⟩
    exact differ (returns'.unique returns₁)

end Matched

/-- A property of all states before the `n`-th step. -/
def Setting.allStates {World : Type} (S : Setting World) (holds : Setting.State World → Bool) :
    Nat → Setting.State World → Bool
  | 0, _ => true
  | n + 1, s => holds s && ((S.step s).all (S.allStates holds n))

theorem Setting.allStates_spec {holds : Setting.State World → Bool} {n : Nat}
    (h : S.allStates holds n s = true) : ∀ k u, k < n → S.run k s = some u → holds u = true := by
  induction n generalizing s with
  | zero => exact fun k u lt => absurd lt (Nat.not_lt_zero k)
  | succ n ih =>
    obtain ⟨here, later⟩ := Bool.and_eq_true_iff.mp h
    intro k u lt reached
    cases k with
    | zero =>
      obtain rfl := Option.some.inj reached
      exact here
    | succ k =>
      obtain ⟨s₁, stepped, reached⟩ := Option.bind_eq_some_iff.mp reached
      rw [stepped, Option.all_some] at later
      exact ih later k u (Nat.lt_of_succ_lt_succ lt) reached

instance {World : Type} {f : Function} {ok : Activation → Mem → Prop} [∀ a m, Decidable (ok a m)]
    (s : Setting.State World) : Decidable (Allowed f ok s) :=
  match s with
  | .running (a :: _) σ => inferInstanceAs (Decidable (a.func = f → ok a σ.mem))
  | .running [] _ => .isTrue trivial
  | .finished .. => .isTrue trivial

end AnonCompiler.Ir
