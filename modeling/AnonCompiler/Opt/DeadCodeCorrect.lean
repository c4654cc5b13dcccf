import AnonCompiler.Opt.DeadCode

/-!
# Dead code can be removed

Runs of the function before and after the pass.  The values of removed instructions
are not the same, all others are; a removed call has left the memory as it was, up to
bytes that belong to no object.  What the run shows besides calls that may be removed
is the same: the blocks entered with their arguments, the writes, the other calls and
how the activation ends.
-/

set_option autoImplicit false

namespace AnonCompiler.Ir

/-! ## Memories with the same objects -/

/-- The same objects with the same bytes. -/
structure Mem.SameLive (m m' : Mem) : Prop where
  size : m'.size = m.size
  byte : ∀ {obj size i}, m.size obj = some size → i < size → m'.byte obj i = m.byte obj i

/-- The effect is the same, up to the memory a write leaves. -/
inductive Effect.SameLive : Effect → Effect → Prop where
  | same (e : Effect) : SameLive e e
  | write {m m' : Mem} (same : m.SameLive m') : SameLive (.write m) (.write m')

namespace Mem.SameLive

variable {m m' m₁ : Mem} {p : Ptr} {count : Nat} {content : List MByte}

theorem refl (m : Mem) : m.SameLive m := ⟨rfl, fun _ _ => rfl⟩

theorem symm (same : m.SameLive m') : m'.SameLive m :=
  ⟨same.size.symm, fun live inside => (same.byte (same.size ▸ live) inside).symm⟩

theorem trans {m'' : Mem} (first : m.SameLive m') (second : m'.SameLive m'') : m.SameLive m'' :=
  ⟨second.size.trans first.size, fun live inside =>
    (second.byte (first.size ▸ live) inside).trans (first.byte live inside)⟩

theorem valid (same : m.SameLive m') : m'.Valid p count ↔ m.Valid p count := by
  rw [Mem.Valid, Mem.Valid, same.size]

theorem read (same : m.SameLive m') (isContent : m.read p count = some content) :
    m'.read p count = some content := by
  obtain ⟨valid, rfl⟩ := Mem.read_eq_some.mp isContent
  refine Mem.read_eq_some.mpr ⟨same.valid.mpr valid, ?_⟩
  obtain ⟨size, live, start, inside⟩ := valid
  refine List.map_congr_left fun i member => (same.byte live ?_).symm
  have := List.mem_range.mp member
  omega

theorem write (same : m.SameLive m') (written : m.write p content = some m₁) :
    ∃ m₁', m'.write p content = some m₁' ∧ m₁.SameLive m₁' := by
  obtain ⟨valid, rfl⟩ := Mem.write_eq_some.mp written
  refine ⟨_, Mem.write_eq_some.mpr ⟨same.valid.mpr valid, rfl⟩, same.size, ?_⟩
  intro obj size i live inside
  simp only [Mem.overwrite, same.byte live inside]

end Mem.SameLive

section SameLive

variable {X : Ctx} {F : FunctionData} {a : Activation} {m m' : Mem} {inst : Inst} {e : Effect}

/-- An instruction reads and writes objects only. -/
theorem exec_sameLive (same : m.SameLive m') (effect : exec X F a m inst = some e) :
    ∃ e', exec X F a m' inst = some e' ∧ e.SameLive e' := by
  obtain ⟨⟨ty, kind⟩, found⟩ := exec_isSome effect
  cases kind with
  | store src dest =>
    simp only [exec, found, Option.bind_eq_bind, Option.bind_eq_some_iff,
      Option.map_eq_some_iff] at effect
    obtain ⟨v, operand, p, address, srcData, isSrc, m₁, written, rfl⟩ := effect
    obtain ⟨m₁', written', same'⟩ := same.write written
    exact ⟨.write m₁', by simp [exec, found, operand, address, isSrc, written'], .write same'⟩
  | memZero dest byteLen =>
    simp only [exec, found, Option.bind_eq_bind, Option.bind_eq_some_iff,
      Option.map_eq_some_iff] at effect
    obtain ⟨p, address, length, isLength, m₁, written, rfl⟩ := effect
    obtain ⟨m₁', written', same'⟩ := same.write written
    exact ⟨.write m₁', by simp [exec, found, address, isLength, written'], .write same'⟩
  | load src =>
    simp only [exec, found, Option.bind_eq_bind, Option.bind_eq_some_iff,
      Option.map_eq_some_iff] at effect
    obtain ⟨p, address, content, read, rfl⟩ := effect
    exact ⟨_, by simp [exec, found, address, same.read read], .same _⟩
  | ret value =>
    refine ⟨e, ?_, .same e⟩
    cases value <;>
    · simp only [exec, found] at effect ⊢
      exact effect
  | _ =>
    refine ⟨e, ?_, .same e⟩
    simp only [exec, found] at effect ⊢
    exact effect

end SameLive

/-! ## What cannot be removed from a run -/

/-- The same is shown, up to bytes that belong to no object. -/
inductive Seen.SameLive : Seen → Seen → Prop where
  | same (s : Seen) : SameLive s s
  | write {m m' : Mem} (same : m.SameLive m') : SameLive (.write m) (.write m')

/-- A call of one of the functions. -/
def Seen.isCallOf (callees : Function → Bool) : Seen → Bool
  | .call callee .. => callees callee
  | _ => false

/-- What a run shows besides the calls of some functions. -/
def effectsBut (callees : Function → Bool) (seen : List Seen) : List Seen :=
  seen.filter fun s => !s.isCallOf callees

/-- From the memory on, every call of one of the functions comes back with the same
objects and the same bytes. -/
def Harmless (callees : Function → Bool) : Mem → List Seen → Prop
  | _, [] => True
  | m, .call callee _ _ m' :: later =>
    (callees callee = true → m.SameLive m') ∧ Harmless callees m' later
  | _, .write m' :: later => Harmless callees m' later
  | m, _ :: later => Harmless callees m later

/-- Related activations with the same objects, or the end on both sides. -/
inductive Outcome.SameLive (R : Activation → Activation → Prop) : Outcome → Outcome → Prop where
  | running {a a' : Activation} {m m' : Mem} (related : R a a') (same : m.SameLive m') :
      SameLive R (.running a m) (.running a' m')
  | done : SameLive R .done .done

/-- Every run of `F` from which calls of some functions come back harmless has a
counterpart in `F'`, which does the same besides such calls. -/
def PreservesBut (X : Ctx) (callees : Function → Bool) (F F' : FunctionData) : Prop :=
  ∀ {func frame args a}, Activation.start F func frame args = some a →
    ∃ a', Activation.start F' func frame args = some a' ∧ ∀ {m seen o}, OpenRun X F a m seen o →
      Harmless callees m seen → ∃ seen' o', OpenRun X F' a' m seen' o' ∧
        List.Forall₂ Seen.SameLive (effectsBut callees seen) (effectsBut callees seen') ∧
        Outcome.SameLive (fun _ _ => True) o o'

section Harmless

variable {X : Ctx} {F : FunctionData} {a b : Activation} {m m' : Mem} {seen later : List Seen}
  {callees : Function → Bool}

/-- A run is harmless when its first step and the rest are. -/
theorem harmless_step (step : OpenStep X F a m seen (.running b m'))
    (harmless : Harmless callees m (seen ++ later)) :
    Harmless callees m seen ∧ Harmless callees m' later := by
  cases step with
  | value => exact ⟨trivial, harmless⟩
  | write => exact ⟨trivial, harmless⟩
  | goto => exact ⟨trivial, harmless⟩
  | call => exact ⟨⟨harmless.1, trivial⟩, harmless.2⟩

theorem effectsBut_append : effectsBut callees (seen ++ later) =
    effectsBut callees seen ++ effectsBut callees later := List.filter_append ..

end Harmless

end AnonCompiler.Ir

namespace AnonCompiler.Opt.DeadCode

open Ir Lib

/-- The instruction is laid out and not live. -/
def Dead (F : FunctionData) (live : List Inst) (x : Inst) : Prop := x ∈ F.layoutInsts ∧ x ∉ live

section Swept

variable {P : Program} {X : Ctx} {F : FunctionData} {live : List Inst} {x inst : Inst}
  {data : InstData}

theorem swept_insts_of_not_dead (alive : ¬ Dead F live x) : (swept F live).insts x = F.insts x :=
  if_neg alive

theorem swept_blockInsts (bb : BasicBlock) : (swept F live).blockInsts bb =
    (F.blockInsts bb).map (List.filter (· ∈ live)) := by
  unfold FunctionData.blockInsts swept
  simp only
  induction F.layout with
  | nil => rfl
  | cons first rest ih =>
    obtain ⟨key, insts⟩ := first
    by_cases here : bb = key
    · simp [here]
    · have differ : (bb == key) = false := beq_eq_false_iff_ne.mpr here
      simp only [List.map_cons, List.lookup_cons, differ]
      exact ih

theorem swept_entryBlock : (swept F live).entryBlock = F.entryBlock := by
  simp [FunctionData.entryBlock, swept, Function.comp_def]

theorem mem_swept_layoutInsts : x ∈ (swept F live).layoutInsts ↔ x ∈ F.layoutInsts ∧ x ∈ live := by
  simp only [FunctionData.layoutInsts, swept, List.flatMap_map, List.mem_flatMap, List.mem_filter,
    decide_eq_true_eq]
  constructor
  · rintro ⟨entry, laidOut, member, isLive⟩
    exact ⟨⟨entry, laidOut, member⟩, isLive⟩
  · rintro ⟨⟨entry, laidOut, member⟩, isLive⟩
    exact ⟨entry, laidOut, member, isLive⟩

theorem not_dead_of_isGlobal (wellFormed : F.WellFormed) (isGlobal : x.isGlobal = true) :
    ¬ Dead F live x := by
  rintro ⟨laidOut, -⟩
  obtain ⟨data, found, -⟩ := wellFormed.laidOut laidOut
  rw [wellFormed.isLocal (by simp [found])] at isGlobal
  cases isGlobal

theorem not_dead_of_param (wellFormed : F.WellFormed) {bb : BasicBlock}
    (isParam : x ∈ F.blockParams bb) : ¬ Dead F live x := fun dead =>
  wellFormed.not_param dead.1 bb isParam

/-- What has a constant value is not laid out. -/
theorem swept_sameConsts (ssa : F.Ssa) : SameConsts F (swept F live) := by
  intro x
  by_cases dead : Dead F live x
  · refine .inr ⟨fun data found => ssa.executable dead.1 found, fun data found => ?_⟩
    have gone : (swept F live).insts x = none := if_pos dead
    rw [gone] at found
    cases found
  · exact .inl (swept_insts_of_not_dead dead)

/-- An operand that stays is the same. -/
theorem carries_swept (ssa : F.Ssa) {env env' : Env} (alive : ¬ Dead F live x)
    (same : env' x = env x) : X.Carries F (swept F live) env env' x x := by
  refine ((swept_sameConsts ssa).sameOperand ?_ same).carries
  unfold Ctx.instData
  rw [swept_insts_of_not_dead alive]

/-- A live instruction needs nothing that is dead. -/
theorem Live.operand_alive {removable : List Inst} (marks : Live P F removable live)
    (wellFormed : F.WellFormed) (isLive : inst ∈ live) (found : F.insts inst = some data)
    (notGlobal : ∀ init, data.kind ≠ .globalAlloc init) (used : x ∈ data.kind.instUsage) :
    ¬ Dead F live x := by
  rw [← markedOperands_eq notGlobal] at used
  rcases marks.closed isLive found x used with isLive' | isGlobal
  · exact fun dead => dead.2 isLive'
  · exact not_dead_of_isGlobal wellFormed isGlobal

end Swept

/-- The activations differ in dead instructions only. -/
structure Mirrors (F : FunctionData) (live : List Inst) (a a' : Activation) : Prop where
  func : a'.func = a.func
  frame : a'.frame = a.frame
  block : a'.block = a.block
  laidOut : a.rest ⊆ F.layoutInsts
  rest : a'.rest = a.rest.filter (· ∈ live)
  env : ∀ {x}, ¬ Dead F live x → a'.env x = a.env x

section Mirrors

variable {P : Program} {X : Ctx} {F : FunctionData} {removable live : List Inst}
  {a a' b : Activation} {inst : Inst} {rest : List Inst}

variable {m m' : Mem} {e : Effect}

/-- Both activations enter the same block. -/
theorem enterBlock_mirrors (live : List Inst) (wellFormed : F.WellFormed) {target : BasicBlock}
    {vals : List Val}
    (func : a'.func = a.func) (frame : a'.frame = a.frame)
    (env : ∀ {x}, ¬ Dead F live x → a'.env x = a.env x)
    (entered : a.enterBlock F target vals = some b) :
    ∃ b', a'.enterBlock (swept F live) target vals = some b' ∧ Mirrors F live b b' := by
  obtain ⟨same, insts, block, rfl⟩ := Activation.enterBlock_eq_some.mp entered
  refine ⟨_, Activation.enterBlock_eq_some.mpr ⟨same, insts.filter (· ∈ live), ?_, rfl⟩, func,
    frame, rfl, fun x member => FunctionData.mem_layoutInsts block member, rfl, fun alive => ?_⟩
  · rw [swept_blockInsts, block, Option.map_some]
  · refine bindParams_sameTypes (fun p isParam => ?_) (env alive)
    rw [swept_insts_of_not_dead (not_dead_of_param wellFormed isParam)]

theorem start_mirrors (live : List Inst) (wellFormed : F.WellFormed) {func : Function}
    {frame : Nat} {args : List Val}
    (started : Activation.start F func frame args = some a) :
    ∃ a', Activation.start (swept F live) func frame args = some a' ∧ Mirrors F live a a' := by
  obtain ⟨entry, isEntry, entered⟩ := Option.bind_eq_some_iff.mp started
  obtain ⟨a', entered', mirrors⟩ := enterBlock_mirrors live wellFormed rfl rfl
    (fun _ => rfl) entered
  exact ⟨a', by rw [Activation.start, swept_entryBlock, isEntry]; exact entered', mirrors⟩

/-- A live instruction has the same effect in both. -/
theorem Mirrors.exec_live (mirrors : Mirrors F live a a') (marks : Live P F removable live)
    (wellFormed : F.WellFormed) (ssa : F.Ssa) (current : a.rest = inst :: rest)
    (isLive : inst ∈ live) (same : m.SameLive m') (effect : exec X F a m inst = some e) :
    ∃ e', exec X (swept F live) a' m' inst = some e' ∧ e.SameLive e' := by
  obtain ⟨data, found⟩ := exec_isSome effect
  have laidOut : inst ∈ F.layoutInsts := mirrors.laidOut (by simp [current])
  have notConst := ssa.executable laidOut found
  have notGlobal : ∀ init, data.kind ≠ .globalAlloc init := by
    intro init isGlobal
    rw [isGlobal] at notConst
    cases notConst
  have found' : (swept F live).insts inst = some data :=
    (swept_insts_of_not_dead fun dead => dead.2 isLive).trans found
  refine exec_sameLive same
    (exec_congr found found' mirrors.func mirrors.frame (fun x used => ?_) effect)
  have alive := marks.operand_alive wellFormed isLive found notGlobal used
  exact carries_swept ssa alive (mirrors.env alive)

/-- A dead instruction computes a value, or is a call that may be removed. -/
theorem dead_effect (marks : Live P F removable live) (laidOut : inst ∈ F.layoutInsts)
    (notLive : inst ∉ live) (effect : exec X F a m inst = some e) :
    (∃ v, e = .value v) ∨ ∃ callee args vals ty, F.insts inst = some ⟨ty, .call callee args⟩ ∧
      inst ∈ removable ∧ e = .call callee vals := by
  obtain ⟨⟨ty, kind⟩, found⟩ := exec_isSome effect
  have notCritical : isCritical removable inst kind ≠ some true := fun critical =>
    notLive (marks.critical laidOut found critical)
  cases executes_of_exec found effect with
  | alloc => exact .inl ⟨_, rfl⟩
  | load => exact .inl ⟨_, rfl⟩
  | pure => exact .inl ⟨_, rfl⟩
  | @call callee args vals isCall =>
    cases isCall
    refine .inr ⟨callee, args, vals, ty, found, ?_, rfl⟩
    by_contra notRemovable
    exact notCritical (by simp [isCritical, notRemovable])
  | jump isKind => cases isKind; exact absurd rfl notCritical
  | branch isKind => cases isKind; exact absurd rfl notCritical
  | retVoid isKind => cases isKind; exact absurd rfl notCritical
  | ret isKind => cases isKind; exact absurd rfl notCritical
  | store isKind => cases isKind; exact absurd rfl notCritical
  | memZero isKind => cases isKind; exact absurd rfl notCritical
  | tailCall isKind => cases isKind; exact absurd rfl notCritical

section

variable (mirrors : Mirrors F live a a') (current : a.rest = inst :: rest)
include mirrors current

/-- Executing a dead instruction is not seen on the other side. -/
theorem Mirrors.define_dead (notLive : inst ∉ live) (v : Val) :
    Mirrors F live (a.define inst v) a' := by
  have laidOut : inst ∈ F.layoutInsts := mirrors.laidOut (by simp [current])
  refine ⟨mirrors.func, mirrors.frame, mirrors.block, ?_, ?_, fun {x} alive => ?_⟩
  · exact fun x later => mirrors.laidOut (List.mem_of_mem_tail later)
  · rw [mirrors.rest, Activation.define, current]
    simp [notLive]
  · have differ : x ≠ inst := by
      rintro rfl
      exact alive ⟨laidOut, notLive⟩
    rw [Activation.define_env_of_ne differ]
    exact mirrors.env alive

/-- Both sides go on to the next instruction. -/
theorem Mirrors.next (isLive : inst ∈ live) : Mirrors F live a.next a'.next := by
  refine ⟨mirrors.func, mirrors.frame, mirrors.block, ?_, ?_, mirrors.env⟩
  · exact fun x later => mirrors.laidOut (List.mem_of_mem_tail later)
  · simp [Activation.next, mirrors.rest, current, isLive]

theorem Mirrors.define (isLive : inst ∈ live) (v : Val) :
    Mirrors F live (a.define inst v) (a'.define inst v) := by
  have next := mirrors.next current isLive
  refine ⟨next.func, next.frame, next.block, next.laidOut, next.rest, fun {x} alive => ?_⟩
  by_cases isInst : x = inst
  · simp [Activation.define, isInst]
  · rw [Activation.define_env_of_ne isInst, Activation.define_env_of_ne isInst]
    exact mirrors.env alive

/-- Both sides come back from a call. -/
theorem Mirrors.resume (isLive : inst ∈ live) {value : Option Val}
    (resumed : a.resume F value = some b) :
    ∃ b', a'.resume (swept F live) value = some b' ∧ Mirrors F live b b' := by
  obtain ⟨inst', rest', data, current', found, rfl⟩ := Activation.resume_eq_some.mp resumed
  obtain ⟨rfl, rfl⟩ := List.cons.inj (current.symm.trans current')
  have stays := swept_insts_of_not_dead (F := F) fun dead : Dead F live inst => dead.2 isLive
  have current'' : a'.rest = inst :: rest.filter (· ∈ live) := by
    simp [mirrors.rest, current, isLive]
  exact ⟨_, Activation.resume_eq_some.mpr ⟨inst, _, data, current'', stays.trans found, rfl⟩,
    mirrors.define current isLive _⟩

end

section

variable (mirrors : Mirrors F live a a') (marks : Live P F removable live)
  (wellFormed : F.WellFormed) (ssa : F.Ssa) {callees : Function → Bool}
  (areCalls : ∀ {x ty callee args}, x ∈ removable → F.insts x = some ⟨ty, .call callee args⟩ →
    callees callee = true)
include mirrors marks wellFormed ssa areCalls

/-- A step of the function before the pass has an answer after it. -/
theorem Mirrors.step {m m' : Mem} (same : m.SameLive m') {seen : List Seen} {o : Outcome}
    (step : OpenStep X F a m seen o) (harmless : Harmless callees m seen) :
    ∃ seen' o', OpenRun X (swept F live) a' m' seen' o' ∧
      List.Forall₂ Seen.SameLive (effectsBut callees seen) (effectsBut callees seen') ∧
      Outcome.SameLive (Mirrors F live) o o' := by
  obtain ⟨inst, rest, current, e, effect⟩ : ∃ inst rest, a.rest = inst :: rest ∧
      ∃ e, exec X F a m inst = some e := by
    cases step with
    | value current effect => exact ⟨_, _, current, _, effect⟩
    | write current effect => exact ⟨_, _, current, _, effect⟩
    | goto current effect _ => exact ⟨_, _, current, _, effect⟩
    | call _ current effect _ => exact ⟨_, _, current, _, effect⟩
    | tailCall current effect => exact ⟨_, _, current, _, effect⟩
    | ret current effect => exact ⟨_, _, current, _, effect⟩
  have laidOut : inst ∈ F.layoutInsts := mirrors.laidOut (by simp [current])
  have unique : ∀ {inst' rest' e'}, a.rest = inst' :: rest' → exec X F a m inst' = some e' →
      inst' = inst ∧ e' = e := by
    intro inst' rest' e' current' effect'
    obtain ⟨rfl, -⟩ := List.cons.inj (current.symm.trans current')
    exact ⟨rfl, Option.some.inj (effect'.symm.trans effect)⟩
  by_cases isLive : inst ∈ live
  · -- the other side executes the same instruction
    obtain ⟨e', effect', alike⟩ := mirrors.exec_live marks wellFormed ssa current isLive same effect
    have current' : a'.rest = inst :: rest.filter (· ∈ live) := by
      simp [mirrors.rest, current, isLive]
    cases step with
    | value here does =>
      obtain ⟨rfl, rfl⟩ := unique here does
      cases alike
      exact ⟨_, _, .single (.value current' effect'), .nil,
        .running (mirrors.define current isLive _) same⟩
    | write here does =>
      obtain ⟨rfl, rfl⟩ := unique here does
      cases alike with
      | same =>
        exact ⟨_, _, .single (.write current' effect'), .cons (.same _) .nil,
          .running (mirrors.next current isLive) (.refl _)⟩
      | write same' =>
        exact ⟨_, _, .single (.write current' effect'), .cons (.write same') .nil,
          .running (mirrors.next current isLive) same'⟩
    | goto here does entered =>
      obtain ⟨rfl, rfl⟩ := unique here does
      cases alike
      obtain ⟨b', entered', mirrors'⟩ :=
        enterBlock_mirrors live wellFormed mirrors.func mirrors.frame
        mirrors.env entered
      exact ⟨_, _, .single (.goto current' effect' entered'), .cons (.same _) .nil,
        .running mirrors' same⟩
    | call m₁ here does resumed =>
      obtain ⟨rfl, rfl⟩ := unique here does
      cases alike
      obtain ⟨b', resumed', mirrors'⟩ := mirrors.resume current isLive resumed
      refine ⟨_, _, .single (.call m₁ current' effect' resumed'), ?_, .running mirrors' (.refl _)⟩
      exact List.forall₂_same.mpr fun s _ => .same s
    | tailCall here does =>
      obtain ⟨rfl, rfl⟩ := unique here does
      cases alike
      exact ⟨_, _, .single (.tailCall current' effect'), .cons (.same _) .nil, .done⟩
    | ret here does =>
      obtain ⟨rfl, rfl⟩ := unique here does
      cases alike
      exact ⟨_, _, .single (.ret current' effect'), .cons (.same _) .nil, .done⟩
  · -- the other side has nothing to do
    rcases dead_effect marks laidOut isLive effect with ⟨v, rfl⟩ |
      ⟨callee, args, vals, ty, found, isRemovable, rfl⟩
    · cases step with
      | value here does =>
        obtain ⟨rfl, isValue⟩ := unique here does
        exact ⟨[], _, .refl _ _, .nil, .running (mirrors.define_dead current isLive _) same⟩
      | write here does => cases (unique here does).2
      | goto here does _ => cases (unique here does).2
      | call _ here does _ => cases (unique here does).2
      | tailCall here does => cases (unique here does).2
      | ret here does => cases (unique here does).2
    · have isCallee := areCalls isRemovable found
      cases step with
      | call m₁ here does resumed =>
        obtain ⟨rfl, isCall⟩ := unique here does
        cases isCall
        obtain ⟨inst', rest', data, current', -, rfl⟩ := Activation.resume_eq_some.mp resumed
        obtain ⟨rfl, -⟩ := List.cons.inj (current.symm.trans current')
        refine ⟨[], _, .refl _ _, ?_, .running (mirrors.define_dead current isLive _) ?_⟩
        · simp [effectsBut, Seen.isCallOf, isCallee]
        · exact (harmless.1 isCallee).symm.trans same
      | value here does => cases (unique here does).2
      | write here does => cases (unique here does).2
      | goto here does _ => cases (unique here does).2
      | tailCall here does => cases (unique here does).2
      | ret here does => cases (unique here does).2

/-- So has a run. -/
theorem Mirrors.run (same : m.SameLive m') {seen : List Seen} {o : Outcome}
    (run : OpenRun X F a m seen o) (harmless : Harmless callees m seen) :
    ∃ seen' o', OpenRun X (swept F live) a' m' seen' o' ∧
      List.Forall₂ Seen.SameLive (effectsBut callees seen) (effectsBut callees seen') ∧
      Outcome.SameLive (Mirrors F live) o o' := by
  induction run generalizing a' m' with
  | refl a m => exact ⟨[], _, .refl a' m', .nil, .running mirrors same⟩
  | step first _ ih =>
    obtain ⟨here, later⟩ := harmless_step first harmless
    obtain ⟨seen', o', answer, shown, next⟩ :=
      mirrors.step marks wellFormed ssa areCalls same first here
    cases next with
    | running mirrors' same' =>
      obtain ⟨later', o'', rest, shown', last⟩ := ih mirrors' same' later
      refine ⟨seen' ++ later', o'', answer.trans rest, ?_, last⟩
      rw [effectsBut_append, effectsBut_append]
      exact List.rel_append shown shown'
  | last final => exact mirrors.step marks wellFormed ssa areCalls same final harmless

end

end Mirrors

/-! ## The pass -/

/-- What the instructions of the layout need: themselves, their operands, and the
operands of constants among these.  A global instruction is not in the arena of a
function. -/
inductive Needed (F : FunctionData) : Inst → Prop where
  | laidOut {x : Inst} (laidOut : x ∈ F.layoutInsts) : Needed F x
  | operand {inst x : Inst} {data : InstData} (user : Needed F inst)
      (found : F.insts inst = some data) (isLocal : ∀ init, data.kind ≠ .globalAlloc init)
      (used : x ∈ data.kind.instUsage) : Needed F x

/-- The second function does not have the instruction as the first has it. -/
def Removed (F F' : FunctionData) (x : Inst) : Prop :=
  x ∈ F.layoutInsts ∧ x ∉ F'.layoutInsts ∨ F'.insts x ≠ F.insts x

/-- The second function does what the first does, besides calls of the given
functions, and needs nothing that is gone. -/
structure Eliminates (callees : Function → Bool) (F F' : FunctionData) : Prop where
  runs : ∀ X, PreservesBut X callees F F'
  needed : ∀ {x}, Needed F' x → ¬ Removed F F' x

section Pass

variable {P : Program} {F : FunctionData} {removable live : List Inst} {callees : Function → Bool}

variable {x : Inst} {A : EffectAnalysis}

theorem Live.needed (marks : Live P F removable live) (wellFormed : F.WellFormed)
    (needed : Needed (swept F live) x) : x ∈ live ∨ x.isGlobal = true := by
  induction needed with
  | laidOut laidOut => exact .inl (mem_swept_layoutInsts.mp laidOut).2
  | @operand inst x data _ found isLocal used ih =>
    have found' : F.insts inst = some data := by
      by_cases dead : Dead F live inst
      · have gone : (swept F live).insts inst = none := if_pos dead
        rw [gone] at found
        cases found
      · rwa [swept_insts_of_not_dead dead] at found
    rcases ih with isLive | isGlobal
    · rw [← markedOperands_eq isLocal] at used
      exact marks.closed isLive found' x used
    · rw [wellFormed.isLocal (by simp [found'])] at isGlobal
      cases isGlobal

theorem Live.eliminates (marks : Live P F removable live) (wellFormed : F.WellFormed) (ssa : F.Ssa)
    (areCalls : ∀ {x ty callee args}, x ∈ removable → F.insts x = some ⟨ty, .call callee args⟩ →
      callees callee = true) : Eliminates callees F (swept F live) := by
  refine ⟨fun X func frame args a started => ?_, fun {x} needed => ?_⟩
  · obtain ⟨a', started', mirrors⟩ := start_mirrors live wellFormed started
    refine ⟨a', started', fun {m seen o} run harmless => ?_⟩
    obtain ⟨seen', o', run', shown, last⟩ :=
      mirrors.run marks wellFormed ssa areCalls (.refl m) run harmless
    refine ⟨seen', o', run', shown, ?_⟩
    cases last with
    | running _ same => exact .running trivial same
    | done => exact .done
  · have alive : ¬ Dead F live x := by
      rcases marks.needed wellFormed needed with isLive | isGlobal
      · exact fun dead => dead.2 isLive
      · exact not_dead_of_isGlobal wellFormed isGlobal
    rintro (⟨laidOut, gone⟩ | differs)
    · refine gone (mem_swept_layoutInsts.mpr ⟨laidOut, ?_⟩)
      by_contra notLive
      exact alive ⟨laidOut, notLive⟩
    · exact differs (swept_insts_of_not_dead alive)

theorem runOnFunc_eliminates (wellFormed : F.WellFormed) (ssa : F.Ssa)
    (areCalls : ∀ {x ty callee args}, x ∈ removable → F.insts x = some ⟨ty, .call callee args⟩ →
      callees callee = true) :
    ∃ F' changed, runOnFunc P F removable = some (F', changed) ∧ Eliminates callees F F' := by
  obtain ⟨s, live, start, ran, marks⟩ := mark_spec (P := P) removable wellFormed ssa
  refine ⟨swept F live, !(renameList F live).isEmpty, ?_, marks.eliminates wellFormed ssa areCalls⟩
  simp only [runOnFunc, start, ran, Option.bind_eq_bind, Option.bind_some, sweep_renameList]

/-- A call that may be removed is a call of a removable function. -/
theorem callee_of_mem_removableCalls {ty : Ty} {callee : Function} {args : List Inst}
    (isRemovable : x ∈ removableCalls A F) (found : F.insts x = some ⟨ty, .call callee args⟩) :
    (A.effects callee).isRemovable = true := by
  have accepted := (List.mem_filter.mp isRemovable).2
  simpa [FunctionData.kind, found] using accepted

/-- The pass on some functions of the program. -/
theorem runAll_eliminates {funcs : List Function} (nodup : funcs.Nodup)
    (wellFormed : ∀ {f F}, f ∈ funcs → P.funcData f = some F → F.WellFormed)
    (ssa : ∀ {f F}, f ∈ funcs → P.funcData f = some F → F.Ssa)
    (present : ∀ f ∈ funcs, ∃ F, P.funcData f = some F) (before : Bool) :
    ∃ P' changed, funcs.foldlM (fun (state : Program × Bool) func => do
        let F ← state.1.funcData func
        let (F', changed) ← runOnFunc state.1 F (removableCalls A F)
        some (state.1.withFunction func F', state.2 || changed)) (P, before) = some (P', changed) ∧
      (∀ f ∉ funcs, P'.funcData f = P.funcData f) ∧
      ∀ {f F}, f ∈ funcs → P.funcData f = some F → ∃ F', P'.funcData f = some F' ∧
        Eliminates (fun g => (A.effects g).isRemovable) F F' := by
  induction funcs generalizing P before with
  | nil => exact ⟨P, before, rfl, fun _ _ => rfl, fun member => nomatch member⟩
  | cons first funcs ih =>
    obtain ⟨notLater, nodup⟩ := List.nodup_cons.mp nodup
    obtain ⟨F₀, data₀⟩ := present first List.mem_cons_self
    obtain ⟨F₀', changed₀, ran, eliminates⟩ : ∃ F' changed,
        runOnFunc P F₀ (removableCalls A F₀) = some (F', changed) ∧
          Eliminates (fun g => (A.effects g).isRemovable) F₀ F' :=
      runOnFunc_eliminates (wellFormed List.mem_cons_self data₀) (ssa List.mem_cons_self data₀)
        fun isRemovable found => callee_of_mem_removableCalls isRemovable found
    have other : ∀ {g}, g ≠ first →
        (P.withFunction first F₀').funcData g = P.funcData g := fun differ => by
      simp [Program.withFunction, Program.funcData, List.getElem?_set_ne differ.symm]
    have here : (P.withFunction first F₀').funcData first = some F₀' := by
      have inside : first < P.funcs.length := (List.getElem?_eq_some_iff.mp data₀).1
      simp [Program.withFunction, Program.funcData, inside]
    have apart : ∀ {g}, g ∈ funcs → g ≠ first := by
      rintro g later rfl
      exact notLater later
    obtain ⟨P', changed, run, unchanged, rest⟩ := ih (P := P.withFunction first F₀') nodup
      (fun later data => wellFormed (List.mem_cons_of_mem _ later) (other (apart later) ▸ data))
      (fun later data => ssa (List.mem_cons_of_mem _ later) (other (apart later) ▸ data))
      (fun f later => (other (apart later)).symm ▸ present f (List.mem_cons_of_mem _ later))
      (before || changed₀)
    refine ⟨P', changed, ?_, fun f outside => ?_, fun {f F} member data => ?_⟩
    · simp only [List.foldlM_cons, data₀, ran, Option.bind_eq_bind, Option.bind_some]
      exact run
    · rw [List.mem_cons, not_or] at outside
      rw [unchanged f outside.2, other outside.1]
    · rcases List.mem_cons.mp member with rfl | later
      · obtain rfl := Option.some.inj (data₀.symm.trans data)
        exact ⟨F₀', (unchanged f notLater).trans here, eliminates⟩
      · exact rest later ((other (apart later)).trans data)

/-- Whatever the analysis calls removable: where such calls come back harmless, every
laid out function does after the pass what it did before, and uses nothing that is
gone. -/
theorem run_eliminates (A : EffectAnalysis) (wellFormed : P.WellFormed)
    (ssa : ∀ {f F}, f ∈ P.functionLayout → P.funcData f = some F → F.Ssa)
    (present : ∀ f ∈ P.functionLayout, ∃ F, P.funcData f = some F) :
    ∃ P' changed, run A P = some (P', changed) ∧
      (∀ f ∉ P.functionLayout, P'.funcData f = P.funcData f) ∧
      ∀ {f F}, f ∈ P.functionLayout → P.funcData f = some F → ∃ F', P'.funcData f = some F' ∧
        Eliminates (fun g => (A.effects g).isRemovable) F F' :=
  runAll_eliminates wellFormed.layout_nodup (fun _ data => (wellFormed.function data).1) ssa present
    false

/-- A call of a value that nothing else uses. -/
def unusedCaller : Listing where
  retTy := .int32
  name := "caller"
  paramsTy := []
  layout := [(0, [2, 3, 4])]
  insts := [(0, ⟨.int32, .integer 5⟩), (1, ⟨.int32, .integer 6⟩), (2, ⟨.int32, .binary .add 0 1⟩),
    (3, ⟨.int32, .call 1 [2]⟩), (4, ⟨.unit, .ret (some 1)⟩)]
  nextInst := 5
  blockParams := []
  nextBlock := 1

def identity : Listing where
  retTy := .int32
  name := "identity"
  paramsTy := [.int32]
  layout := [(0, [1])]
  insts := [(0, ⟨.int32, .blockArgRef 0⟩), (1, ⟨.unit, .ret (some 0)⟩)]
  nextInst := 2
  blockParams := [(0, [0])]
  nextBlock := 1

def unusedCall : Program := .ofListings [unusedCaller, identity] [] 0

/-- Nothing has an effect. -/
def withoutEffects : EffectAnalysis where
  baseTable := fun _ _ => none
  effects := fun _ => ⟨[], [], false, false, false, false⟩
  pointsTo := fun _ _ => none

/-- Only the return stays in the caller. -/
theorem run_eliminates_unusedCall : ∃ P' changed,
    run withoutEffects unusedCall = some (P', changed) ∧ changed = true ∧
      P'.funcs.map FunctionData.layout = [[(0, [4])], [(0, [1])]] ∧
      ∀ {f F}, f ∈ unusedCall.functionLayout → unusedCall.funcData f = some F →
        ∃ F', P'.funcData f = some F' ∧ Eliminates (fun _ => true) F F' := by
  have checked : unusedCall.wellFormedListings [unusedCaller, identity] = true := by decide
  have tables : unusedCaller.ssaBy [(0, [])] = true ∧ identity.ssaBy [(0, [0])] = true := by decide
  have ssa : ∀ {f F}, unusedCall.funcData f = some F → F.Ssa := by
    intro f F data
    obtain ⟨L, listed, rfl⟩ := Program.funcData_ofListings data
    rcases List.mem_pair.mp (List.mem_of_getElem? listed) with rfl | rfl
    · exact Listing.ssa_toFunctionData tables.1
    · exact Listing.ssa_toFunctionData tables.2
  have known : ∀ f ∈ unusedCall.functionLayout, (unusedCall.funcData f).isSome = true := by decide
  have wellFormed : unusedCall.WellFormed := Program.wellFormed_ofListings checked
  obtain ⟨P', changed, ran, -, eliminates⟩ := run_eliminates withoutEffects wellFormed
    (fun _ data => ssa data) fun f member => Option.isSome_iff_exists.mp (known f member)
  have whole : (run withoutEffects unusedCall).map (fun r =>
      (r.2, r.1.funcs.map FunctionData.layout)) = some (true, [[(0, [4])], [(0, [1])]]) := by decide
  rw [ran] at whole
  simp only [Option.map_some, Option.some.injEq, Prod.mk.injEq] at whole
  exact ⟨P', changed, ran, whole.1, whole.2, fun member data => eliminates member data⟩

end Pass

end AnonCompiler.Opt.DeadCode
