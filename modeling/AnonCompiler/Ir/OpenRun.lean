import AnonCompiler.Ir.Ssa

/-!
# Runs of one activation

An activation runs against everything around it: a call comes back with any value and
any memory.  A run shows the blocks it enters with their arguments, what it writes, its
calls with what came back, and how it ends.  A function refines another one when every
run of the other has a counterpart that shows the same, apart from visits of blocks that
are not kept; refinements compose.
-/

set_option autoImplicit false

namespace AnonCompiler.Ir

/-- What a step shows. -/
inductive Seen where
  | visit (block : BasicBlock) (args : List Val)
  | write (m : Mem)
  | call (callee : Function) (args : List Val) (value : Option Val) (m : Mem)
  | tailCall (callee : Function) (args : List Val)
  | ret (value : Option Val)

inductive Outcome where
  | running (a : Activation) (m : Mem)
  | done

/-- One step. -/
inductive OpenStep (X : Ctx) (F : FunctionData) (a : Activation) (m : Mem) :
    List Seen → Outcome → Prop where
  | value {inst : Inst} {rest : List Inst} {v : Val} (current : a.rest = inst :: rest)
      (effect : exec X F a m inst = some (.value v)) :
      OpenStep X F a m [] (.running (a.define inst v) m)
  | write {inst : Inst} {rest : List Inst} {m' : Mem} (current : a.rest = inst :: rest)
      (effect : exec X F a m inst = some (.write m')) :
      OpenStep X F a m [.write m'] (.running a.next m')
  | goto {inst : Inst} {rest : List Inst} {target : BasicBlock} {args : List Val} {b : Activation}
      (current : a.rest = inst :: rest) (effect : exec X F a m inst = some (.goto target args))
      (entered : a.enterBlock F target args = some b) :
      OpenStep X F a m [.visit target args] (.running b m)
  | call {inst : Inst} {rest : List Inst} {callee : Function} {args : List Val} {value : Option Val}
      {b : Activation} (m' : Mem) (current : a.rest = inst :: rest)
      (effect : exec X F a m inst = some (.call callee args))
      (resumed : a.resume F value = some b) :
      OpenStep X F a m [.call callee args value m'] (.running b m')
  | tailCall {inst : Inst} {rest : List Inst} {callee : Function} {args : List Val}
      (current : a.rest = inst :: rest)
      (effect : exec X F a m inst = some (.tailCall callee args)) :
      OpenStep X F a m [.tailCall callee args] .done
  | ret {inst : Inst} {rest : List Inst} {value : Option Val} (current : a.rest = inst :: rest)
      (effect : exec X F a m inst = some (.ret value)) :
      OpenStep X F a m [.ret value] .done

inductive OpenRun (X : Ctx) (F : FunctionData) : Activation → Mem → List Seen → Outcome → Prop where
  | refl (a : Activation) (m : Mem) : OpenRun X F a m [] (.running a m)
  | step {a b : Activation} {m m' : Mem} {seen later : List Seen} {o : Outcome}
      (first : OpenStep X F a m seen (.running b m')) (rest : OpenRun X F b m' later o) :
      OpenRun X F a m (seen ++ later) o
  | last {a : Activation} {m : Mem} {seen : List Seen} (final : OpenStep X F a m seen .done) :
      OpenRun X F a m seen .done

section Runs

variable {X : Ctx} {F : FunctionData} {a b : Activation} {m m' : Mem} {seen later : List Seen}
  {o : Outcome}

theorem OpenRun.single (step : OpenStep X F a m seen o) : OpenRun X F a m seen o := by
  cases o with
  | running b m' => simpa using OpenRun.step step (.refl b m')
  | done => exact .last step

theorem OpenRun.trans (first : OpenRun X F a m seen (.running b m'))
    (second : OpenRun X F b m' later o) : OpenRun X F a m (seen ++ later) o := by
  generalize middle : Outcome.running b m' = next at first
  induction first with
  | refl => cases middle; exact second
  | step first _ ih =>
    rw [List.append_assoc]
    exact .step first (ih middle)
  | last => cases middle

/-- What steps preserve holds along a run. -/
theorem OpenRun.invariant {I : Activation → Prop}
    (preserved : ∀ {a m seen b m'}, I a → OpenStep X F a m seen (.running b m') → I b)
    (run : OpenRun X F a m seen (.running b m')) (start : I a) : I b := by
  generalize outcome : Outcome.running b m' = o at run
  induction run with
  | refl => cases outcome; exact start
  | step first _ ih => exact ih (preserved start first) outcome
  | last => cases outcome

/-- The equations hold along runs. -/
theorem Activation.Consistent.openStep {done : List Inst} (h : a.Consistent X F done)
    (wellFormed : F.WellFormed) (ssa : F.Ssa) (step : OpenStep X F a m seen (.running b m')) :
    ∃ done', b.Consistent X F done' := by
  cases step with
  | value current effect => exact ⟨_, h.value wellFormed ssa current effect⟩
  | write current effect => exact ⟨_, h.write wellFormed ssa current effect⟩
  | goto current effect entered => exact ⟨_, h.goto wellFormed ssa current effect entered⟩
  | call _ current effect resumed => exact ⟨_, h.resume wellFormed ssa current effect resumed⟩

end Runs

/-! ## Simulation -/

/-- Visits of blocks that are not kept are left out. -/
def shownBy (keep : BasicBlock → Bool) (seen : List Seen) : List Seen :=
  seen.filter fun
    | .visit block _ => keep block
    | _ => true

@[simp] theorem shownBy_nil (keep : BasicBlock → Bool) : shownBy keep [] = [] := rfl

@[simp] theorem shownBy_append (keep : BasicBlock → Bool) (seen later : List Seen) :
    shownBy keep (seen ++ later) = shownBy keep seen ++ shownBy keep later :=
  List.filter_append ..

theorem shownBy_all (seen : List Seen) : shownBy (fun _ => true) seen = seen := by
  refine List.filter_eq_self.mpr fun s _ => ?_
  cases s <;> rfl

theorem shownBy_shownBy (keep keep' : BasicBlock → Bool) (seen : List Seen) :
    shownBy keep' (shownBy keep seen) = shownBy (fun bb => keep bb && keep' bb) seen := by
  simp only [shownBy, List.filter_filter]
  refine List.filter_congr fun s _ => ?_
  cases s <;> simp [Bool.and_comm]

/-- Related activations with the same memory, or the end on both sides. -/
inductive Outcome.Related (R : Activation → Activation → Prop) : Outcome → Outcome → Prop where
  | running {a a' : Activation} (m : Mem) (related : R a a') :
      Related R (.running a m) (.running a' m)
  | done : Related R .done .done

/-- Every step is answered by a run that shows the same. -/
def OpenSim (X : Ctx) (F F' : FunctionData) (keep : BasicBlock → Bool)
    (R : Activation → Activation → Prop) : Prop :=
  ∀ {a a' m seen o}, R a a' → OpenStep X F a m seen o →
    ∃ o', OpenRun X F' a' m (shownBy keep seen) o' ∧ Outcome.Related R o o'

section Simulation

variable {X : Ctx} {F F' F'' : FunctionData} {keep keep' : BasicBlock → Bool}
  {R : Activation → Activation → Prop}

variable {a a' : Activation} {m : Mem} {seen : List Seen} {o : Outcome}

theorem OpenSim.run (sim : OpenSim X F F' keep R) (related : R a a')
    (run : OpenRun X F a m seen o) :
    ∃ o', OpenRun X F' a' m (shownBy keep seen) o' ∧ Outcome.Related R o o' := by
  induction run generalizing a' with
  | refl a m => exact ⟨_, .refl a' m, .running m related⟩
  | step first _ ih =>
    obtain ⟨o', answer, next⟩ := sim related first
    cases next with
    | running m related =>
      obtain ⟨o', later, last⟩ := ih related
      rw [shownBy_append]
      exact ⟨o', answer.trans later, last⟩
  | last final =>
    obtain ⟨o', answer, ends⟩ := sim related final
    exact ⟨o', answer, ends⟩

/-- Every run of `F` has a counterpart in `F'`. -/
def Refines (X : Ctx) (F F' : FunctionData) (keep : BasicBlock → Bool) : Prop :=
  ∀ {func frame args a}, Activation.start F func frame args = some a →
    ∃ a', Activation.start F' func frame args = some a' ∧ ∀ {m seen o}, OpenRun X F a m seen o →
      ∃ o', OpenRun X F' a' m (shownBy keep seen) o' ∧ Outcome.Related (fun _ _ => True) o o'

theorem Outcome.Related.mono {R' : Activation → Activation → Prop} (le : ∀ {a a'}, R a a' → R' a a')
    {o' : Outcome} (h : Outcome.Related R o o') : Outcome.Related R' o o' := by
  cases h with
  | running m related => exact .running m (le related)
  | done => exact .done

theorem OpenSim.refines (sim : OpenSim X F F' keep R)
    (start : ∀ {func frame args a}, Activation.start F func frame args = some a →
      ∃ a', Activation.start F' func frame args = some a' ∧ R a a') : Refines X F F' keep := by
  intro func frame args a started
  obtain ⟨a', started', related⟩ := start started
  refine ⟨a', started', fun run => ?_⟩
  obtain ⟨o', run', related'⟩ := sim.run related run
  exact ⟨o', run', related'.mono fun _ => trivial⟩

/-- Every step is answered by a run that shows the same among the blocks that are kept. -/
def OpenCover (X : Ctx) (F F' : FunctionData) (keep : BasicBlock → Bool)
    (R : Activation → Activation → Prop) : Prop :=
  ∀ {a a' m seen o}, R a a' → OpenStep X F a m seen o →
    ∃ seen' o', OpenRun X F' a' m seen' o' ∧ shownBy keep seen' = seen ∧ Outcome.Related R o o'

/-- Every run of `F` is what a run of `F'` shows among the blocks that are kept. -/
def RefinedBy (X : Ctx) (F F' : FunctionData) (keep : BasicBlock → Bool) : Prop :=
  ∀ {func frame args a}, Activation.start F func frame args = some a →
    ∃ a', Activation.start F' func frame args = some a' ∧ ∀ {m seen o}, OpenRun X F a m seen o →
      ∃ seen' o', OpenRun X F' a' m seen' o' ∧ shownBy keep seen' = seen ∧
        Outcome.Related (fun _ _ => True) o o'

theorem OpenCover.run (cover : OpenCover X F F' keep R) (related : R a a')
    (run : OpenRun X F a m seen o) :
    ∃ seen' o', OpenRun X F' a' m seen' o' ∧ shownBy keep seen' = seen ∧
      Outcome.Related R o o' := by
  induction run generalizing a' with
  | refl a m => exact ⟨[], _, .refl a' m, rfl, .running m related⟩
  | step first _ ih =>
    obtain ⟨seen', o', answer, rfl, next⟩ := cover related first
    cases next with
    | running m related =>
      obtain ⟨later', o', later, rfl, last⟩ := ih related
      exact ⟨seen' ++ later', o', answer.trans later, shownBy_append .., last⟩
  | last final =>
    obtain ⟨seen', o', answer, shown, ends⟩ := cover related final
    exact ⟨seen', o', answer, shown, ends⟩

theorem OpenCover.refinedBy (cover : OpenCover X F F' keep R)
    (start : ∀ {func frame args a}, Activation.start F func frame args = some a →
      ∃ a', Activation.start F' func frame args = some a' ∧ R a a') : RefinedBy X F F' keep := by
  intro func frame args a started
  obtain ⟨a', started', related⟩ := start started
  refine ⟨a', started', fun run => ?_⟩
  obtain ⟨seen', o', run', shown, related'⟩ := cover.run related run
  exact ⟨seen', o', run', shown, related'.mono fun _ => trivial⟩

theorem RefinedBy.refl (F : FunctionData) : RefinedBy X F F fun _ => true := by
  intro func frame args a started
  refine ⟨a, started, fun {m seen o} run => ⟨seen, o, run, shownBy_all seen, ?_⟩⟩
  cases o with
  | running b m => exact .running m trivial
  | done => exact .done

theorem Refines.refl (F : FunctionData) : Refines X F F fun _ => true := by
  intro func frame args a started
  refine ⟨a, started, fun {m seen o} run => ⟨o, ?_, ?_⟩⟩
  · rwa [shownBy_all]
  · cases o with
    | running b m => exact .running m trivial
    | done => exact .done

theorem Refines.trans (first : Refines X F F' keep) (second : Refines X F' F'' keep') :
    Refines X F F'' fun bb => keep bb && keep' bb := by
  intro func frame args a started
  obtain ⟨a', started', runs⟩ := first started
  obtain ⟨a'', started'', runs'⟩ := second started'
  refine ⟨a'', started'', fun {m seen o} run => ?_⟩
  obtain ⟨o', run', related⟩ := runs run
  obtain ⟨o'', run'', related'⟩ := runs' run'
  refine ⟨o'', by rwa [← shownBy_shownBy], ?_⟩
  cases related with
  | running m _ =>
    cases related' with
    | running m _ => exact .running m trivial
  | done =>
    cases related' with
    | done => exact .done

end Simulation

end AnonCompiler.Ir
