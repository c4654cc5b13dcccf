import AnonCompiler.Ir.Exec

/-!
# Running a program

A program runs on a stack of activations.  The activation on top executes its
next instruction; a call pushes an activation with a fresh frame, a return
releases the frame and hands the value to the caller, a tail call to another
function releases the frame before the callee runs, and a tail call of a
function to itself enters the entry block again on the same frame, as the
backends lower it.

Declared functions without a body are answered from outside.  They see the
memory and an outside world of arbitrary type; only the modular multiplication
the backend expands in place has a fixed meaning.

`move` is what the activation on top does, whatever lies below it.  A call that
comes to an end is therefore a run of its own (`Completes`), and
`Completes.cases` takes such a run apart at its first step.
-/

set_option autoImplicit false

namespace AnonCompiler.Ir

/-- Name of the modular-multiplication builtin. -/
def mulmodHelper : String := "soyo_mulmod"

/-- `smull; sxtw; sdiv; msub`: the truncating remainder of the exact product. -/
def mulmodBuiltin : List Val → Option Val
  | [.int a, .int b, .int p] =>
    some (.int (BitVec.ofInt 32 ((a.toInt * b.toInt).tmod p.toInt)))
  | _ => none

/-- The answers of the functions a program only declares. -/
abbrev Externals (World : Type) :=
  String → List Val → Mem → World → Option (Option Val × Mem × World)

def callExternal {World : Type} (externals : Externals World) (name : String) (args : List Val)
    (m : Mem) (world : World) : Option (Option Val × Mem × World) :=
  if name = mulmodHelper then (mulmodBuiltin args).map fun v => (some v, m, world)
  else externals name args m world

/-- The part of a machine state that does not belong to an activation. -/
structure Shared (World : Type) where
  mem : Mem
  nextFrame : Nat
  world : World

/-- What the activation on top of the stack does. -/
inductive Move where
  | stay (a : Activation)
  | push (callee : Activation)
  | replace (callee : Activation)
  | pop (value : Option Val)

/-- Hand a returned value to the call instruction the caller waits at; it is
undefined after a return without a value. -/
def Activation.resume (F : FunctionData) (caller : Activation) (value : Option Val) :
    Option Activation :=
  match caller.rest with
  | [] => none
  | inst :: _ =>
    (F.insts inst).map fun data => caller.define inst ((value.getD .undef).fit data.ty)

theorem Activation.resume_eq_some {F : FunctionData} {caller a : Activation} {value : Option Val} :
    caller.resume F value = some a ↔ ∃ inst rest data, caller.rest = inst :: rest ∧
      F.insts inst = some data ∧ a = caller.define inst ((value.getD .undef).fit data.ty) := by
  unfold resume
  cases caller.rest with
  | nil => simp
  | cons inst rest => simp [eq_comm]

/-- Start an activation of `callee` on a fresh frame. -/
def invoke {World : Type} (callee : Function) (G : FunctionData) (args : List Val)
    (σ : Shared World) : Option (Activation × Shared World) :=
  (Activation.start G callee σ.nextFrame args).map fun a =>
    (a, { σ with mem := σ.mem.enter G callee σ.nextFrame, nextFrame := σ.nextFrame + 1 })

/-- The memory a program starts with: its globals. -/
def Program.globalMem (P : Program) : Mem where
  size
    | .global inst =>
      match P.globals inst with
      | some ⟨.pointer base, .globalAlloc _⟩ => some base.size
      | _ => none
    | .stack .. => none
  byte
    | .global inst => fun i =>
      match P.globals inst with
      | some ⟨.pointer base, .globalAlloc init⟩ =>
        ((Ctx.constBytes P.globals base init).bind (·[i]?)).getD .undef
      | _ => .undef
    | .stack .. => fun _ => MByte.undef

/-- Everything a run depends on beside the state. -/
structure Setting (World : Type) where
  program : Program
  floats : FloatOps
  externals : Externals World

/-- The setting of a program that asks nothing from outside. -/
def Setting.closed (P : Program) : Setting Unit where
  program := P
  floats := ⟨fun _ a _ => a, fun _ _ _ => false, fun acc _ _ => acc, id, id⟩
  externals := fun _ _ _ _ => none

/-- The state before a program that asks nothing from outside is started. -/
def Shared.initial (P : Program) : Shared Unit := ⟨P.globalMem, 0, ()⟩

namespace Setting

variable {World : Type} (S : Setting World)

def ctx : Ctx := ⟨S.floats, S.program.globals⟩

/-- The activation on top calls `callee`. -/
def moveCall (F : FunctionData) (a : Activation) (callee : Function) (args : List Val)
    (σ : Shared World) : Option (Move × Shared World) :=
  match S.program.funcData callee with
  | none => none
  | some G =>
    if G.layout = [] then
      (callExternal S.externals G.name args σ.mem σ.world).bind fun (value, m, world) =>
        (a.resume F value).map fun a' => (.stay a', { σ with mem := m, world := world })
    else (invoke callee G args σ).map fun (c, σ') => (.push c, σ')

/-- The activation on top ends in a tail call of `callee`. -/
def moveTailCall (F : FunctionData) (a : Activation) (callee : Function) (args : List Val)
    (σ : Shared World) : Option (Move × Shared World) :=
  if callee = a.func then
    (Activation.start F a.func a.frame args).map fun a' => (.replace a', σ)
  else
    let released := { σ with mem := σ.mem.release a.func a.frame }
    match S.program.funcData callee with
    | none => none
    | some G =>
      if G.layout = [] then
        (callExternal S.externals G.name args released.mem σ.world).map
          fun (value, m, world) => (.pop value, { released with mem := m, world := world })
      else (invoke callee G args released).map fun (c, σ') => (.replace c, σ')

def move (a : Activation) (σ : Shared World) : Option (Move × Shared World) :=
  match S.program.funcData a.func, a.rest with
  | some F, inst :: _ =>
    match exec S.ctx F a σ.mem inst with
    | none => none
    | some (.value v) => some (.stay (a.define inst v), σ)
    | some (.write m) => some (.stay a.next, { σ with mem := m })
    | some (.goto target args) => (a.enterBlock F target args).map fun a' => (.stay a', σ)
    | some (.call callee args) => S.moveCall F a callee args σ
    | some (.tailCall callee args) => S.moveTailCall F a callee args σ
    | some (.ret value) =>
      some (.pop value, { σ with mem := σ.mem.release a.func a.frame })
  | _, _ => none

/-- A running program, or the value it has returned. -/
inductive State (World : Type) where
  | running (stack : List Activation) (σ : Shared World)
  | finished (value : Option Val) (σ : Shared World)

/-- A value reaches the activations below. -/
def returnTo (below : List Activation) (value : Option Val) (σ : Shared World) :
    Option (State World) :=
  match below with
  | [] => some (.finished value σ)
  | caller :: rest =>
    match S.program.funcData caller.func with
    | none => none
    | some F => (caller.resume F value).map fun a => .running (a :: rest) σ

def apply (a : Activation) (below : List Activation) : Move × Shared World → Option (State World)
  | (.stay a', σ) => some (.running (a' :: below) σ)
  | (.push c, σ) => some (.running (c :: a :: below) σ)
  | (.replace c, σ) => some (.running (c :: below) σ)
  | (.pop value, σ) => S.returnTo below value σ

def step : State World → Option (State World)
  | .running (a :: below) σ => (S.move a σ).bind (S.apply a below)
  | _ => none

def run : Nat → State World → Option (State World)
  | 0, s => some s
  | count + 1, s => (S.step s).bind (run count)

/-- Finitely many steps. -/
def Reaches (s t : State World) : Prop := ∃ count, S.run count s = some t

/-- The state in which `f` has just been called on `args`. -/
def initial (f : Function) (args : List Val) (σ : Shared World) : Option (State World) :=
  (S.program.funcData f).bind fun F =>
    (invoke f F args σ).map fun (a, σ') => .running [a] σ'

/-- The value the next step loads from memory, if it is a load. -/
def loaded : State World → Option Val
  | .running (a :: _) σ =>
    match S.program.funcData a.func, a.rest with
    | some F, inst :: _ =>
      match F.kind inst, exec S.ctx F a σ.mem inst with
      | some (.load _), some (.value v) => some v
      | _, _ => none
    | _, _ => none
  | _ => none

/-- The values loaded in the next steps. -/
def loads : Nat → State World → List Val
  | 0, _ => []
  | count + 1, s =>
    match S.step s with
    | some next => (S.loaded s).toList ++ loads count next
    | none => []

/-- The state in which `main` has just been called. -/
def start (world : World) : Option (State World) :=
  S.program.mainFunction.bind fun main =>
    S.initial main [] { mem := S.program.globalMem, nextFrame := 0, world := world }

/-- The call of `f` on `args` comes to an end with `value`. -/
def Returns (f : Function) (args : List Val) (σ : Shared World) (value : Option Val)
    (σ' : Shared World) : Prop :=
  ∃ s, S.initial f args σ = some s ∧ S.Reaches s (.finished value σ')

end Setting

/-! ## What a step can do -/

/-- All moves of the activation on top, standing at the instruction `inst` of
its function `F`. -/
inductive Moves {World : Type} (S : Setting World) (F : FunctionData) (a : Activation)
    (σ : Shared World) (inst : Inst) : Move → Shared World → Prop where
  | value {v : Val} (effect : exec S.ctx F a σ.mem inst = some (.value v)) :
      Moves S F a σ inst (.stay (a.define inst v)) σ
  | write {m : Mem} (effect : exec S.ctx F a σ.mem inst = some (.write m)) :
      Moves S F a σ inst (.stay a.next) { σ with mem := m }
  | goto {target : BasicBlock} {args : List Val} {a' : Activation}
      (effect : exec S.ctx F a σ.mem inst = some (.goto target args))
      (entered : a.enterBlock F target args = some a') : Moves S F a σ inst (.stay a') σ
  | callExternal {callee : Function} {args : List Val} {G : FunctionData} {value : Option Val}
      {m : Mem} {world : World} {a' : Activation}
      (effect : exec S.ctx F a σ.mem inst = some (.call callee args))
      (data : S.program.funcData callee = some G) (noBody : G.layout = [])
      (answered : callExternal S.externals G.name args σ.mem σ.world = some (value, m, world))
      (resumed : a.resume F value = some a') :
      Moves S F a σ inst (.stay a') { σ with mem := m, world := world }
  | call {callee : Function} {args : List Val} {G : FunctionData} {c : Activation}
      {σ' : Shared World} (effect : exec S.ctx F a σ.mem inst = some (.call callee args))
      (data : S.program.funcData callee = some G) (body : G.layout ≠ [])
      (invoked : invoke callee G args σ = some (c, σ')) : Moves S F a σ inst (.push c) σ'
  | tailSelf {args : List Val} {a' : Activation}
      (effect : exec S.ctx F a σ.mem inst = some (.tailCall a.func args))
      (started : Activation.start F a.func a.frame args = some a') :
      Moves S F a σ inst (.replace a') σ
  | tailExternal {callee : Function} {args : List Val} {G : FunctionData} {value : Option Val}
      {m : Mem} {world : World}
      (effect : exec S.ctx F a σ.mem inst = some (.tailCall callee args)) (other : callee ≠ a.func)
      (data : S.program.funcData callee = some G) (noBody : G.layout = [])
      (answered : callExternal S.externals G.name args (σ.mem.release a.func a.frame) σ.world =
        some (value, m, world)) :
      Moves S F a σ inst (.pop value) { σ with mem := m, world := world }
  | tailCall {callee : Function} {args : List Val} {G : FunctionData} {c : Activation}
      {σ' : Shared World} (effect : exec S.ctx F a σ.mem inst = some (.tailCall callee args))
      (other : callee ≠ a.func) (data : S.program.funcData callee = some G) (body : G.layout ≠ [])
      (invoked :
        invoke callee G args { σ with mem := σ.mem.release a.func a.frame } = some (c, σ')) :
      Moves S F a σ inst (.replace c) σ'
  | ret {value : Option Val} (effect : exec S.ctx F a σ.mem inst = some (.ret value)) :
      Moves S F a σ inst (.pop value) { σ with mem := σ.mem.release a.func a.frame }

theorem moves_of_move {World : Type} {S : Setting World} {a : Activation} {σ σ' : Shared World}
    {m : Move} (h : S.move a σ = some (m, σ')) :
    ∃ F inst rest, S.program.funcData a.func = some F ∧ a.rest = inst :: rest ∧
      Moves S F a σ inst m σ' := by
  unfold Setting.move at h
  split at h
  · next F inst rest data current =>
      refine ⟨F, inst, rest, data, current, ?_⟩
      split at h
      · cases h
      · next v effect =>
          cases h
          exact .value effect
      · next m effect =>
          cases h
          exact .write effect
      · next target args effect =>
          obtain ⟨a', entered, same⟩ := Option.map_eq_some_iff.mp h
          cases same
          exact .goto effect entered
      · next callee args effect =>
          unfold Setting.moveCall at h
          split at h
          · cases h
          · next G data' =>
              split at h
              · next noBody =>
                  obtain ⟨⟨value, m', world⟩, answered, rest⟩ := Option.bind_eq_some_iff.mp h
                  obtain ⟨a', resumed, same⟩ := Option.map_eq_some_iff.mp rest
                  cases same
                  exact .callExternal effect data' noBody answered resumed
              · next body =>
                  obtain ⟨⟨c, σ₁⟩, invoked, same⟩ := Option.map_eq_some_iff.mp h
                  cases same
                  exact .call effect data' body invoked
      · next callee args effect =>
          unfold Setting.moveTailCall at h
          split at h
          · next isSelf =>
              subst isSelf
              obtain ⟨a', started, same⟩ := Option.map_eq_some_iff.mp h
              cases same
              exact .tailSelf effect started
          · next other =>
              dsimp only at h
              split at h
              · cases h
              · next G data' =>
                  split at h
                  · next noBody =>
                      obtain ⟨⟨value, m', world⟩, answered, same⟩ := Option.map_eq_some_iff.mp h
                      cases same
                      exact .tailExternal effect other data' noBody answered
                  · next body =>
                      obtain ⟨⟨c, σ₁⟩, invoked, same⟩ := Option.map_eq_some_iff.mp h
                      cases same
                      exact .tailCall effect other data' body invoked
      · next value effect =>
          cases h
          exact .ret effect
  · cases h

/-! ## Runs of one activation -/

namespace Setting

variable {World : Type} {S : Setting World}

variable {n : Nat} {value : Option Val} {σ σ₁ σ' : Shared World} {t s : State World} {f : Function}
  {args : List Val} {a : Activation}

theorem run_add (m n : Nat) (s : State World) : S.run (m + n) s = (S.run m s).bind (S.run n) := by
  induction m generalizing s with
  | zero => simp [run]
  | succ m ih =>
    rw [Nat.succ_add]
    simp only [run]
    cases S.step s with
    | none => rfl
    | some next => simpa using ih next

theorem run_finished (h : S.run n (.finished value σ) = some t) :
    n = 0 ∧ t = .finished value σ := by
  cases n with
  | zero => exact ⟨rfl, by simpa [run] using h.symm⟩
  | succ n => simp [run, step] at h

/-- What steps preserve, as long as something else holds before each of them,
holds at the end of a run. -/
theorem run_invariant {Q Ok : State World → Prop}
    (keeps : ∀ {s t}, Q s → Ok s → S.step s = some t → Q t) (h : Q s)
    (ok : ∀ k u, k < n → S.run k s = some u → Ok u) (ran : S.run n s = some t) : Q t := by
  induction n generalizing s with
  | zero =>
    obtain rfl := Option.some.inj ran
    exact h
  | succ n ih =>
    obtain ⟨next, stepped, later⟩ := Option.bind_eq_some_iff.mp ran
    refine ih (keeps h (ok 0 s (Nat.succ_pos n) rfl) stepped) (fun k u lt reached => ?_) later
    exact ok (k + 1) u (Nat.succ_lt_succ lt) (by simp [run, stepped, reached])

variable (S) in
/-- Alone on the stack, the activation comes to an end in `n` steps. -/
def Completes (n : Nat) (a : Activation) (σ : Shared World) (value : Option Val)
    (σ' : Shared World) : Prop :=
  S.run n (.running [a] σ) = some (.finished value σ')

variable (S) in
/-- What happens after `value` has reached the activations below. -/
def Continues (n : Nat) (below : List Activation) (value : Option Val) (σ : Shared World)
    (t : State World) : Prop :=
  ∃ s, S.returnTo below value σ = some s ∧ S.run n s = some t

/-- A call that comes to an end does so in one way. -/
theorem Returns.unique {σ₂ : Shared World} {v₁ v₂ : Option Val} (h₁ : S.Returns f args σ v₁ σ₁)
    (h₂ : S.Returns f args σ v₂ σ₂) : v₁ = v₂ := by
  obtain ⟨s, started, m, first⟩ := h₁
  obtain ⟨s', started', n, second⟩ := h₂
  obtain rfl := Option.some.inj (started.symm.trans started')
  have ended : ∀ {m n v₁ v₂ σ₁ σ₂}, m ≤ n → S.run m s = some (.finished v₁ σ₁) →
      S.run n s = some (.finished v₂ σ₂) → v₁ = v₂ := by
    intro m n v₁ v₂ σ₁ σ₂ le first second
    rw [← Nat.add_sub_cancel' le, run_add, first, Option.bind_some] at second
    obtain ⟨-, same⟩ := run_finished second
    cases same
    rfl
  rcases Nat.le_total m n with le | le
  · exact ended le first second
  · exact (ended le second first).symm

theorem Completes.of_stay {a' : Activation} (moved : S.move a σ = some (.stay a', σ₁))
    (later : S.Completes n a' σ₁ value σ') : S.Completes (n + 1) a σ value σ' := by
  simp only [Completes, run, step, moved, Option.bind_some, apply]
  exact later

theorem Completes.of_pop (moved : S.move a σ = some (.pop value, σ')) :
    S.Completes 1 a σ value σ' := by
  simp [Completes, run, step, moved, apply, returnTo]

theorem Returns.completes (h : S.Returns f args σ value σ') :
    ∃ F a σ₁ n, S.program.funcData f = some F ∧ invoke f F args σ = some (a, σ₁) ∧
      S.Completes n a σ₁ value σ' := by
  obtain ⟨s, started, n, run⟩ := h
  simp only [initial, Option.bind_eq_some_iff, Option.map_eq_some_iff] at started
  obtain ⟨F, data, ⟨a, σ₁⟩, invoked, rfl⟩ := started
  exact ⟨F, a, σ₁, n, data, invoked, run⟩

/-- A run from the start is a call of `main`. -/
theorem returns_of_start {main : Function} {world : World}
    (isMain : S.program.mainFunction = some main) (started : S.start world = some s)
    (ran : S.run n s = some (.finished value σ')) :
    S.Returns main [] ⟨S.program.globalMem, 0, world⟩ value σ' :=
  ⟨s, by simpa [start, isMain] using started, n, ran⟩

variable (S) in
/-- At most `count` steps. -/
def settle : Nat → State World → State World
  | 0, s => s
  | count + 1, s =>
    match S.step s with
    | some next => settle count next
    | none => s

theorem reaches_settle (count : Nat) (s : State World) : S.Reaches s (S.settle count s) := by
  induction count generalizing s with
  | zero => exact ⟨0, rfl⟩
  | succ count ih =>
    rw [settle]
    split
    · next next stepped =>
        obtain ⟨n, run⟩ := ih next
        exact ⟨n + 1, by simp [Setting.run, stepped, run]⟩
    · exact ⟨0, rfl⟩

variable (S) in
/-- The value of a call, when it comes to an end within the given number of
steps. -/
def evalCall (count : Nat) (f : Function) (args : List Val) (σ : Shared World) :
    Option (Option Val) :=
  match (S.initial f args σ).map (S.settle count) with
  | some (.finished value _) => some value
  | _ => none

theorem returns_of_evalCall {count : Nat} (h : S.evalCall count f args σ = some value) :
    ∃ σ', S.Returns f args σ value σ' := by
  unfold evalCall at h
  split at h
  · next v σ' ended =>
      obtain rfl := Option.some.inj h
      obtain ⟨s, started, settled⟩ := Option.map_eq_some_iff.mp ended
      exact ⟨σ', s, started, settled ▸ reaches_settle count s⟩
  · cases h

/-- A finished run goes through the end of the activations on top: they
complete on their own, and the rest of the run belongs to those below. -/
theorem run_split (top below : List Activation)
    (h : S.run n (.running (a :: top ++ below) σ) = some (.finished value σ')) :
    ∃ k v σ₁, k ≤ n ∧ S.run k (.running (a :: top) σ) = some (.finished v σ₁) ∧
      S.Continues (n - k) below v σ₁ (.finished value σ') := by
  induction n generalizing top a σ with
  | zero => simp [run] at h
  | succ n ih =>
    simp only [run, step, List.cons_append, Option.bind_eq_some_iff] at h
    obtain ⟨s, ⟨⟨m, σ₁⟩, moved, applied⟩, rest⟩ := h
    -- one step of the whole stack is one step of the upper part, unless it pops the last
    -- activation of that part
    have lift : ∀ {a' top'}, S.apply a top (m, σ₁) = some (.running (a' :: top') σ₁) →
        s = .running (a' :: top' ++ below) σ₁ →
        ∃ k v σ₂, k ≤ n + 1 ∧ S.run k (.running (a :: top) σ) = some (.finished v σ₂) ∧
          S.Continues (n + 1 - k) below v σ₂ (.finished value σ') := by
      rintro a' top' upper rfl
      obtain ⟨k, v, σ₂, le, inner, outer⟩ := ih _ rest
      refine ⟨k + 1, v, σ₂, by omega, ?_, by rwa [Nat.add_sub_add_right]⟩
      simp only [run, step, moved, Option.bind_some, upper, inner]
    cases m with
    | stay | push | replace => exact lift rfl (by simpa [apply] using applied.symm)
    | pop v =>
      cases top with
      | nil =>
        refine ⟨1, v, σ₁, by omega, ?_, s, applied, rest⟩
        simp only [run, step, moved, Option.bind_some, apply, returnTo]
      | cons caller more =>
        simp only [apply, List.cons_append, returnTo] at applied
        cases data : S.program.funcData caller.func with
        | none => simp [data] at applied
        | some F =>
          rw [data] at applied
          simp only [Option.map_eq_some_iff] at applied
          obtain ⟨a', resumed, rfl⟩ := applied
          exact lift (by simp [apply, returnTo, data, resumed]) rfl

/-- The first step of an activation that comes to an end. -/
theorem Completes.cases (h : S.Completes n a σ value σ') :
    ∃ m σ₁, S.move a σ = some (m, σ₁) ∧
      match m with
      | .stay a' | .replace a' => ∃ k, k < n ∧ S.Completes k a' σ₁ value σ'
      | .pop v => v = value ∧ σ₁ = σ'
      | .push c => ∃ k v σ₂ F a' l, S.Completes k c σ₁ v σ₂ ∧ k < n ∧
          S.program.funcData a.func = some F ∧ a.resume F v = some a' ∧
            S.Completes l a' σ₂ value σ' ∧ l < n := by
  cases n with
  | zero => simp [Completes, run] at h
  | succ n =>
    simp only [Completes, run, step, Option.bind_eq_some_iff] at h
    obtain ⟨s, ⟨⟨m, σ₁⟩, moved, applied⟩, rest⟩ := h
    refine ⟨m, σ₁, moved, ?_⟩
    cases m with
    | stay a' | replace a' =>
      obtain rfl := Option.some.inj applied
      exact ⟨n, by omega, rest⟩
    | pop v =>
      obtain rfl := Option.some.inj applied
      obtain ⟨-, same⟩ := run_finished rest
      cases same
      exact ⟨rfl, rfl⟩
    | push c =>
      obtain rfl := Option.some.inj applied
      obtain ⟨k, v, σ₂, le, inner, s, returned, outer⟩ :=
        run_split [] [a] rest
      simp only [returnTo] at returned
      cases data : S.program.funcData a.func with
      | none => simp [data] at returned
      | some F =>
        rw [data] at returned
        simp only [Option.map_eq_some_iff] at returned
        obtain ⟨a', resumed, rfl⟩ := returned
        exact ⟨k, v, σ₂, F, a', n - k, inner, by omega, rfl, resumed, outer, by omega⟩

end Setting

end AnonCompiler.Ir
