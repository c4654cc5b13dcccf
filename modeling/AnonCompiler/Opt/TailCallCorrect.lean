import AnonCompiler.Opt.TailCallRelation

/-!
# Tail calls read the same values

A step of the original program is matched by a step of the rewritten one, or by
none while the waiting activations of rewritten calls return one after the other
(`sim_step`).  This needs that no step reaches an object of a waiting activation
(`Clean`), which the pass does not check: in `run_reads_overwritten` a function
passes a pointer to its local variable to itself.
-/

set_option autoImplicit false

namespace AnonCompiler.Opt.TailCallElim

open Ir

variable {World : Type} {S : Setting World} {φ : FrameMap} {F F' : FunctionData}

/-! ## The code of a rewritten function -/

section Code

variable {site : Inst → Bool}

theorem optimized_ctx (wellFormed : S.program.WellFormed) : (optimized S).ctx = S.ctx := by
  simp [Setting.ctx, optimized, (run_spec wellFormed).1]

section

variable (tailed : Tailed site F F')
include tailed

theorem Tailed.allocSize_eq (i : Inst) : Mem.allocSize F' i = Mem.allocSize F i := by
  unfold Mem.allocSize
  rcases tailed.insts i with same | ⟨-, gone, ⟨_, _, _, was⟩ | ⟨_, _, was⟩⟩ | ⟨new, _, _, now⟩
  · rw [same]
  · simp [gone, was]
  · simp [gone, was]
  · simp [new, now]

theorem Tailed.layout_nil : F'.layout = [] ↔ F.layout = [] := by
  have blocks := tailed.blocks
  unfold FunctionData.blocks at blocks
  constructor
  · intro empty
    simpa [empty] using blocks.symm
  · intro empty
    simpa [empty] using blocks

theorem Tailed.entryBlock_eq : F'.entryBlock = F.entryBlock := by
  have blocks := tailed.blocks
  unfold FunctionData.blocks at blocks
  simp only [FunctionData.entryBlock, ← List.head?_map, blocks]

/-- Block parameters stay. -/
theorem Tailed.param (wellFormed : F.WellFormed) {bb : BasicBlock} {param : Inst}
    (member : param ∈ F.blockParams bb) : F'.insts param = F.insts param := by
  obtain ⟨data, index, found, kind⟩ := wellFormed.blockParam member
  rcases tailed.insts param with same | ⟨-, -, ⟨_, _, _, was⟩ | ⟨_, _, was⟩⟩ | ⟨new, -⟩
  · exact same
  · rw [was] at found
    cases found
    cases kind
  · rw [was] at found
    cases found
    cases kind
  · simp [new] at found

end

variable {m m' : Mem} {a a' : Activation}

section

variable (h : PairedIn S φ m m' F F' a a')
include h

/-- The operands of an activation match those of its counterpart. -/
theorem PairedIn.operandMatches (inst : Inst) :
    S.ctx.OperandMatches φ.toRenaming F a.env F' a'.env inst := by
  refine Ctx.OperandMatches.of_env h.env (fun i => ?_) inst
  rcases h.tailed.insts i with same | ⟨-, gone, was⟩ | ⟨new, _, _, now⟩
  · exact .inl same
  · refine .inr ⟨h.unset i ?_, ?_, ?_⟩
    · rcases was with ⟨_, _, _, was⟩ | ⟨_, _, was⟩ <;> simp [gone, was]
    · intro data found
      rcases was with ⟨_, _, _, was⟩ | ⟨_, _, was⟩ <;>
        (obtain rfl := Option.some.inj (was.symm.trans found); rfl)
    · intro data found
      simp [gone] at found
  · refine .inr ⟨h.unset i (by simp [new, now]), ?_, ?_⟩
    · intro data found
      simp [new] at found
    · intro data found
      obtain rfl := Option.some.inj (now.symm.trans found)
      rfl

/-- The next instruction, when it is not a rewritten call. -/
theorem PairedIn.head {inst : Inst} {tail : List Inst} (rest : a.rest = inst :: tail)
    (notSite : siteIn S.program a.func inst = false) :
    ∃ tail', a'.rest = inst :: tail' ∧ F'.insts inst = F.insts inst ∧
      Rest (siteIn S.program a.func) F F' tail tail' := by
  have code := h.rest
  rw [rest] at code
  generalize after : a'.rest = rest' at code
  cases code with
  | cons same _ later => exact ⟨_, rfl, same, later⟩
  | tail isSite => simp [notSite] at isSite

section

variable {inst : Inst} {tail tail' : List Inst} (rest : a.rest = inst :: tail)
  (rest' : a'.rest = inst :: tail')
include rest rest'

theorem PairedIn.define (same : F'.insts inst = F.insts inst)
    (later : Rest (siteIn S.program a.func) F F' tail tail') {v v' : Val}
    (value : v.Matches φ.toRenaming v') :
    PairedIn S φ m m' F F' (a.define inst v) (a'.define inst v') := by
  refine { h with
    env := h.env.define value
    rest := by simpa [Activation.define, rest, rest'] using later
    unset := ?_ }
  intro i changed
  have differ : i ≠ inst := by
    rintro rfl
    exact changed same
  exact (Function.update_of_ne differ _ _).trans (h.unset i changed)

theorem PairedIn.next (later : Rest (siteIn S.program a.func) F F' tail tail') :
    PairedIn S φ m m' F F' a.next a'.next :=
  { h with rest := by simpa [Activation.next, rest, rest'] using later }

end

end

/-- Binding parameters sets nothing else. -/
theorem bindParams_unset {env : Env} {params : List Inst} {args : List Val} {i : Inst}
    (notParam : i ∉ params) : bindParams F env params args i = env i := by
  induction params generalizing args with
  | nil => cases args <;> rfl
  | cons param params ih =>
    cases args with
    | nil => rfl
    | cons v args =>
      simp only [List.mem_cons, not_or] at notParam
      simp only [bindParams]
      rw [Function.update_of_ne notParam.1, ih notParam.2]

theorem PairedIn.enterBlock (h : PairedIn S φ m m' F F' a a') (wellFormed : F.WellFormed)
    {target : BasicBlock} {args args' : List Val}
    (sames : List.Forall₂ (Val.Matches φ.toRenaming) args args') {b : Activation}
    (entered : a.enterBlock F target args = some b) :
    ∃ b', a'.enterBlock F' target args' = some b' ∧ PairedIn S φ m m' F F' b b' ∧
      b.func = a.func ∧ b.frame = a.frame ∧ b'.frame = a'.frame := by
  unfold Activation.enterBlock at entered ⊢
  split at entered
  · next count =>
      obtain ⟨insts, block, rfl⟩ := Option.map_eq_some_iff.mp entered
      obtain ⟨insts', block', code⟩ := h.tailed.rest block
      rw [h.tailed.blockParams, if_pos (sames.length_eq ▸ count), block']
      refine ⟨_, rfl, { h with
        env := ?_
        rest := code
        unset := fun i changed => ?_ }, rfl, rfl, rfl⟩
      · exact bindParams_matches h.env (fun param member => h.tailed.param wellFormed member) sames
      · refine (bindParams_unset fun member => ?_).trans (h.unset i changed)
        exact changed (h.tailed.param wellFormed member)
  · cases entered

end Code

/-! ## Returning -/

section Returning

variable {m m' : Mem} {a a' : Activation} {below below' : List Activation}

variable {v v' : Option Val}

/-- The counterpart of a caller takes the value that is returned. -/
theorem Paired.resume (pair : Paired S φ m m' a a') (notWaiting : waiting S.program a = false)
    (called : ∃ F inst rest data, S.program.funcData a.func = some F ∧ a.rest = inst :: rest ∧
    F.insts inst = some data)
    (value : (v.getD .undef).Matches φ.toRenaming (v'.getD .undef)) :
    ∃ F F' b b', S.program.funcData a.func = some F ∧
      (optimized S).program.funcData a'.func = some F' ∧ a.resume F v = some b ∧
        a'.resume F' v' = some b' ∧ Paired S φ m m' b b' ∧ b.frame = a.frame ∧
          b'.frame = a'.frame := by
  obtain ⟨F, F', h⟩ := pair
  obtain ⟨G, inst, tail, data, data', rest, found⟩ := called
  obtain rfl := Option.some.inj (h.data.symm.trans data')
  obtain ⟨tail', rest', same, later⟩ := h.head rest (by simpa [waiting, rest] using notWaiting)
  refine ⟨F, F', _, _, h.data, ?_, ?_, ?_, ⟨F, F', h.define rest rest' same later
    (value.fit data.ty)⟩, rfl, rfl⟩
  · rw [h.func]
    exact h.data'
  · simp [Activation.resume, rest, found]
  · simp [Activation.resume, rest', same, found]

/-- A value can always be handed down. -/
theorem Below.returns (h : Below S φ m m' below below') (v' : Option Val) (σ' : Shared World) :
    ∃ t, (optimized S).returnTo below' v' σ' = some t := by
  induction h with
  | nil => exact ⟨_, rfl⟩
  | wait _ _ ih => exact ih
  | cons pair notWaiting called _ _ =>
    have nothing : ((none : Option Val).getD .undef).Matches φ.toRenaming (v'.getD .undef) :=
      .undef _
    obtain ⟨F, F', b, b', -, data', -, resumed', -⟩ := pair.resume notWaiting called nothing
    exact ⟨_, by simp only [Setting.returnTo, data', resumed', Option.map_some]; rfl⟩

/-- A waiting activation that gets its value returns it. -/
theorem Waits.resume (wellFormed : S.program.WellFormed) (waits : Waits S a) {G : FunctionData}
    (data : S.program.funcData a.func = some G)
    (value : (v.getD .undef).Matches φ.toRenaming (v'.getD .undef)) {b : Activation}
    (resumed : a.resume G v = some b) : Ends S φ b v' ∧ b.func = a.func ∧ b.frame = a.frame := by
  obtain ⟨F, call, ret, ty, callee, args, result, data', rest, -, isCall, isRet, returns⟩ :=
    waits.code
  obtain rfl := Option.some.inj (data.symm.trans data')
  simp only [Activation.resume, rest, isCall, Option.map_some, Option.some.injEq] at resumed
  subst resumed
  refine ⟨⟨G, ret, result, data, by simp [Activation.define, rest], isRet, ?_⟩, rfl, rfl⟩
  intro m u executed
  obtain ⟨d, hd, kind⟩ := Option.map_eq_some_iff.mp isRet
  simp only [exec, hd, kind] at executed
  rcases returns with rfl | rfl
  · simp only [Option.map_eq_some_iff] at executed
    obtain ⟨w, operand, same⟩ := executed
    cases same
    -- the operand of the return is the result of the call
    have isLocal := (wellFormed.function data).1.isLocal (by simp [isCall] : G.insts call ≠ none)
    simp only [Ctx.operand, Ctx.instData, isLocal, Bool.false_eq_true, if_false, isCall,
      Ctx.isConst, Activation.define, Function.update_self, Option.some.injEq] at operand
    subst operand
    exact value.fit_left ty
  · cases executed
    exact .undef _

theorem waits_waiting (waits : Waits S a) : waiting S.program a = true := by
  obtain ⟨F, call, ret, ty, callee, args, result, data', rest, isSite, -⟩ := waits.code
  simp [waiting, rest, isSite]

/-- Handing a value down on both sides. -/
theorem sim_returnTo (wellFormed : S.program.WellFormed) {σ σ' : Shared World}
    (others : Below S φ σ.mem σ'.mem below below')
    (common : Common φ (below.map Activation.frame) (below'.map Activation.frame) σ σ')
    (memory : σ.mem.Matches φ.toRenaming (keep S.program below) σ'.mem)
    (value : (v.getD .undef).Matches φ.toRenaming (v'.getD .undef)) {s : Setting.State World}
    (returned : S.returnTo below v σ = some s) :
    ∃ t, (optimized S).returnTo below' v' σ' = some t ∧ Sim S φ s t := by
  cases others with
  | nil =>
    obtain rfl := Option.some.inj returned
    refine ⟨_, rfl, .finished value common.world (Matches.weaken memory fun _ live => ?_)⟩
    exact ⟨by simp [keep], rfl, rfl⟩
  | @wait w below _ waits later =>
    obtain ⟨t, returned'⟩ := later.returns v' σ'
    refine ⟨t, returned', ?_⟩
    simp only [Setting.returnTo] at returned
    cases data : S.program.funcData w.func with
    | none => simp [data] at returned
    | some G =>
      rw [data] at returned
      obtain ⟨b, resumed, rfl⟩ := Option.map_eq_some_iff.mp returned
      obtain ⟨ends, func, frame⟩ := waits.resume wellFormed data value resumed
      have sameOwner : ∀ o, owns b o = owns w o := by
        intro o
        cases o <;> simp [owns, func, frame]
      refine .ending ends later ?_ (Matches.weaken memory fun {o} kept live => ?_) returned'
      · simpa [frame] using common
      · refine ⟨?_, rfl, rfl⟩
        intro x member isWaiting
        rcases List.mem_cons.mp member with rfl | member
        · rw [← sameOwner]
          exact kept.2
        · exact kept.1 x member isWaiting
  | @cons a a' below below' pair notWaiting called later =>
    obtain ⟨F, F', b, b', data, data', resumed, resumed', pair', frame, frame'⟩ :=
      pair.resume notWaiting called value
    simp only [Setting.returnTo, data, resumed, Option.map_some, Option.some.injEq] at returned
    subst returned
    refine ⟨_, by simp only [Setting.returnTo, data', resumed', Option.map_some]; rfl, ?_⟩
    refine .running pair' later ?_ (Matches.weaken memory fun {o} kept live => ?_)
    · simpa [frame, frame'] using common
    · refine ⟨?_, rfl, rfl⟩
      intro x member isWaiting
      rcases List.mem_cons.mp member with rfl | member
      · simp [notWaiting] at isWaiting
      · exact kept x member isWaiting

end Returning

/-! ## Steps that reach no object of a waiting activation -/

/-- The function an instruction calls, with the pointers it passes. -/
def passed (X : Ctx) (F : FunctionData) (env : Env) : InstKind → Option (Function × List Ptr)
  | .call callee args | .tailCall callee args =>
    (X.operands F env args).map fun vals => (callee, vals.filterMap fun v =>
      match v with
      | .ptr p => some p
      | _ => none)
  | _ => none

/-- The function has no body in the program. -/
def isDeclared (P : Program) (f : Function) : Bool := (P.funcData f).any fun G => G.layout = []

/-- The instruction reaches no object of an activation that waits in a rewritten
call, neither by an access nor by a pointer it gives to an external function, and
if it is itself a rewritten call, it gives away no pointer to an object of its own
activation. -/
def CleanInst (S : Setting World) (F : FunctionData) (a : Activation) (below : List Activation)
    (inst : Inst) : Prop :=
  ∀ data ∈ F.insts inst,
    (∀ o ∈ S.ctx.touches F a.env data.kind, keep S.program below o) ∧
    ∀ pass ∈ passed S.ctx F a.env data.kind, ∀ p ∈ pass.2,
      (siteIn S.program a.func inst = true → owns a p.obj = false) ∧
      (isDeclared S.program pass.1 = true → keep S.program below p.obj)

instance (S : Setting World) (F : FunctionData) (a : Activation) (below : List Activation)
    (inst : Inst) : Decidable (CleanInst S F a below inst) := by
  unfold CleanInst
  infer_instance

/-- The next step is that of such an instruction. -/
def Clean (S : Setting World) : Setting.State World → Prop
  | .running (a :: below) _ =>
    ∀ F ∈ S.program.funcData a.func, ∀ inst ∈ a.rest.head?, CleanInst S F a below inst
  | _ => True

instance (S : Setting World) : (s : Setting.State World) → Decidable (Clean S s)
  | .running (a :: below) _ => inferInstanceAs (Decidable
      (∀ F ∈ S.program.funcData a.func, ∀ inst ∈ a.rest.head?, CleanInst S F a below inst))
  | .running [] _ => .isTrue trivial
  | .finished _ _ => .isTrue trivial

theorem mem_passed {X : Ctx} {env : Env} {kind : InstKind} {callee : Function} {args : List Inst}
    {vals : List Val} (isCall : kind = .call callee args ∨ kind = .tailCall callee args)
    (operands : X.operands F env args = some vals) :
    ∃ pointers, passed X F env kind = some (callee, pointers) ∧
      ∀ p, Val.ptr p ∈ vals → p ∈ pointers := by
  rcases isCall with rfl | rfl <;>
  · simp only [passed, operands, Option.map_some]
    exact ⟨_, rfl, fun p member => List.mem_filterMap.mpr ⟨.ptr p, member, rfl⟩⟩

section Steps

variable {a a' : Activation} {below below' : List Activation} {σ σ' : Shared World}

variable {stack : List Activation} {m m' : Mem} {w : Activation} {frames frames' : List Nat}
  {G : FunctionData} {g callee : Function} {args args' : List Val} {σ₁ : Shared World} {mv : Move}
  {s : Setting.State World}

theorem keep_own (common : Common φ (a.frame :: below.map Activation.frame)
    (a'.frame :: below'.map Activation.frame) σ σ') (i : Inst) :
    keep S.program below (.stack a.frame a.func i) := by
  intro w member _
  refine owns_of_ne (fun same => ?_) i
  have nodup := common.nodup
  rw [List.nodup_cons] at nodup
  exact nodup.1 (List.mem_map.mpr ⟨w, member, same⟩)

/-- Releasing the frame of the activation on top changes no object below. -/
theorem release_below (nodup : (a.frame :: stack.map Activation.frame).Nodup) (member : w ∈ stack)
    (i : Inst) :
    (m.release a.func a.frame).size (.stack w.frame w.func i) =
      m.size (.stack w.frame w.func i) := by
  refine release_size_of_not_owns (owns_of_ne (fun same => ?_) i)
  rw [List.nodup_cons] at nodup
  exact nodup.1 (List.mem_map.mpr ⟨w, member, same.symm⟩)

theorem release_size_none {g f : Function} {k k' : Nat} {i : Inst}
    (dead : m.size (.stack k f i) = none) : (m.release g k').size (.stack k f i) = none := by
  simp only [Mem.release]
  split
  · rfl
  · exact dead

theorem matches_keep_cons (memory : σ.mem.Matches φ.toRenaming (keep S.program below) σ'.mem) :
    σ.mem.Matches φ.toRenaming (keep S.program (a :: below)) σ'.mem :=
  Matches.weaken memory fun kept _ => ⟨fun w member => kept w (by simp [member]), rfl, rfl⟩

section

variable (others : Below S φ σ.mem σ'.mem below below')
  (common : Common φ (a.frame :: below.map Activation.frame)
    (a'.frame :: below'.map Activation.frame) σ σ')
  (memory : σ.mem.Matches φ.toRenaming (keep S.program below) σ'.mem)
include others common memory

/-- Without the activations on top, their frames released. -/
theorem released (pair : Paired S φ σ.mem σ'.mem a a') :
    Below S φ (σ.mem.release a.func a.frame) (σ'.mem.release a'.func a'.frame) below below' ∧
      Common φ (below.map Activation.frame) (below'.map Activation.frame)
        { σ with mem := σ.mem.release a.func a.frame }
        { σ' with mem := σ'.mem.release a'.func a'.frame } ∧
      (σ.mem.release a.func a.frame).Matches φ.toRenaming (keep S.program below)
        (σ'.mem.release a'.func a'.frame) := by
  refine ⟨?_, ?_, matches_release pair (keep_own common) memory⟩
  · exact others.mono (fun rel => rel) (fun w member i => release_below common.nodup member i)
      fun w member i => release_below common.nodup' member i
  · refine ⟨common.world, (List.nodup_cons.mp common.nodup).2, (List.nodup_cons.mp common.nodup').2,
      fun k member => common.below k (by simp [member]),
      fun k member => common.below' k (by simp [member]), common.bounds, fun live => ?_⟩
    exact common.live fun dead => live (release_size_none dead)

/-- The counterpart's frame released, while the activation waits. -/
theorem released_waiting (waits : Waits S a) (pair : Paired S φ σ.mem σ'.mem a a') :
    Below S φ σ.mem (σ'.mem.release a'.func a'.frame) (a :: below) below' ∧
      Common φ (a.frame :: below.map Activation.frame) (below'.map Activation.frame) σ
        { σ' with mem := σ'.mem.release a'.func a'.frame } ∧
      σ.mem.Matches φ.toRenaming (keep S.program (a :: below))
        (σ'.mem.release a'.func a'.frame) := by
  refine ⟨.wait waits ?_, ?_, ?_⟩
  · exact others.mono (fun rel => rel) (fun _ _ _ => rfl)
      fun w member i => release_below common.nodup' member i
  · exact { common with
      nodup' := (List.nodup_cons.mp common.nodup').2
      below' := fun k member => common.below' k (by simp [member]) }
  · refine Matches.weaken (matches_release_target pair (keep_own common) memory) fun kept _ => ?_
    exact ⟨⟨fun w member => kept w (by simp [member]), kept a (by simp) (waits_waiting waits)⟩,
      rfl, rfl⟩

end

/-! ## Calls -/

section

variable (common : Common φ frames frames' σ σ')
include common

theorem Common.fresh (x : Nat) :
    ¬ φ.rel σ.nextFrame x := fun rel => Nat.lt_irrefl _ (common.bounds rel).1

theorem Common.fresh' (x : Nat) :
    ¬ φ.rel x σ'.nextFrame := fun rel => Nat.lt_irrefl _ (common.bounds rel).2

theorem Common.unused (f : Function) (i : Inst) : σ.mem.size (.stack σ.nextFrame f i) = none := by
  by_contra live
  exact Nat.lt_irrefl _ (common.live live)

end

/-- A new frame of the original program, and its counterpart `k'`. -/
theorem Common.enter {frames frames' after' : List Nat} (common : Common φ frames frames' σ σ')
    (G : FunctionData) (g : Function) {m₁' : Mem} {k' next' : Nat} (grows : σ'.nextFrame ≤ next')
    (below : k' < next') (nodup' : after'.Nodup) (below' : ∀ k ∈ after', k < next') :
    Common (φ.add σ.nextFrame k' common.fresh) (σ.nextFrame :: frames) after'
      { σ with mem := σ.mem.enter G g σ.nextFrame, nextFrame := σ.nextFrame + 1 }
      { σ' with mem := m₁', nextFrame := next' } := by
  refine ⟨common.world, ?_, nodup', ?_, below', ?_, ?_⟩
  · exact List.nodup_cons.mpr ⟨fun member => Nat.lt_irrefl _ (common.below _ member), common.nodup⟩
  · intro k member
    rcases List.mem_cons.mp member with rfl | member
    · exact Nat.lt_succ_self _
    · exact Nat.lt_succ_of_lt (common.below k member)
  · rintro x y (rel | ⟨rfl, rfl⟩)
    · obtain ⟨lt, lt'⟩ := common.bounds rel
      exact ⟨Nat.lt_succ_of_lt lt, Nat.lt_of_lt_of_le lt' grows⟩
    · exact ⟨Nat.lt_succ_self _, below⟩
  · intro k f i live
    by_cases isNew : k = σ.nextFrame
    · exact isNew ▸ Nat.lt_succ_self _
    · have same := (@enter_size_of_ne σ.mem G g σ.nextFrame (.stack k f i) fun j same => by
        cases same
        exact isNew rfl).1
      exact Nat.lt_succ_of_lt (common.live (f := f) (i := i) (same ▸ live))

/-- A callee starts on both sides. -/
theorem start_paired (wellFormed : S.program.WellFormed) {G' : FunctionData}
    (data : S.program.funcData g = some G) (data' : (run S.program).funcData g = some G')
    (tailed : Tailed (siteIn S.program g) G G') {k k' : Nat} (frame : φ.rel k k')
    (objects : ∀ i, m.size (.stack k g i) = Mem.allocSize G i)
    (objects' : ∀ i, m'.size (.stack k' g i) = Mem.allocSize G i)
    (sames : List.Forall₂ (Val.Matches φ.toRenaming) args args') {c : Activation}
    (started : Activation.start G g k args = some c) :
    ∃ c', Activation.start G' g k' args' = some c' ∧ Paired S φ m m' c c' ∧ c.frame = k ∧
      c'.frame = k' := by
  obtain ⟨entry, isEntry, entered⟩ := Option.bind_eq_some_iff.mp started
  have empty : PairedIn S φ m m' G G' ⟨g, k, fun _ => none, entry, []⟩
      ⟨g, k', fun _ => none, entry, []⟩ :=
    { data := data
      data' := data'
      tailed := tailed
      func := rfl
      frame := frame
      env := fun _ _ value => by cases value
      rest := .nil
      unset := fun _ _ => rfl
      objects := objects
      objects' := objects' }
  obtain ⟨c', entered', pair, -, frame, frame'⟩ :=
    empty.enterBlock (wellFormed.function data).1 sames entered
  refine ⟨c', ?_, ⟨G, G', pair⟩, frame, frame'⟩
  simp only [Activation.start, tailed.entryBlock_eq, isEntry, Option.bind_some]
  exact entered'

theorem enter_below {next : Nat} (below : ∀ k ∈ stack.map Activation.frame, k < next)
    (member : w ∈ stack) (i : Inst) : (m.enter G g next).size (.stack w.frame w.func i) =
      m.size (.stack w.frame w.func i) := by
  refine (enter_size_of_ne fun j same => ?_).1
  cases same
  exact Nat.lt_irrefl _ (below _ (List.mem_map.mpr ⟨w, member, rfl⟩))

/-- Both sides push an activation of the callee. -/
theorem sim_push (wellFormed : S.program.WellFormed) {G G' : FunctionData} {g : Function}
    (data : S.program.funcData g = some G) (data' : (optimized S).program.funcData g = some G')
    {stack stack' : List Activation}
    (others : Below S φ σ.mem σ'.mem stack stack')
    (common : Common φ (stack.map Activation.frame) (stack'.map Activation.frame) σ σ')
    (memory : σ.mem.Matches φ.toRenaming (keep S.program stack) σ'.mem) {args args' : List Val}
    (sames : List.Forall₂ (Val.Matches φ.toRenaming) args args') {c : Activation}
    {σ₁ : Shared World} (invoked : invoke g G args σ = some (c, σ₁)) :
    ∃ c' σ₁' ψ, invoke g G' args' σ' = some (c', σ₁') ∧ φ.Grows ψ ∧
      Sim S ψ (.running (c :: stack) σ₁) (.running (c' :: stack') σ₁') := by
  obtain ⟨c₀, started, same⟩ := Option.map_eq_some_iff.mp invoked
  cases same
  set ψ := φ.add σ.nextFrame σ'.nextFrame common.fresh with ψDef
  have le : φ.Grows ψ := fun rel => .inl rel
  obtain ⟨G₁, data₁, tailed⟩ := run_funcData wellFormed data
  obtain rfl := Option.some.inj (data₁.symm.trans data')
  have size' : ∀ i, (σ'.mem.enter G₁ g σ'.nextFrame).size (.stack σ'.nextFrame g i) =
      Mem.allocSize G i := fun i => by rw [enter_size_self, tailed.allocSize_eq]
  have newFrame : ψ.rel σ.nextFrame σ'.nextFrame := .inr ⟨rfl, rfl⟩
  obtain ⟨c', started', pair, frame, frame'⟩ := start_paired wellFormed data data' tailed newFrame
    (fun i => @enter_size_self σ.mem G g σ.nextFrame i) size'
    (sames.imp fun _ _ h => h.mono (FrameMap.toRenaming_mono le)) started
  refine ⟨c', { σ' with mem := σ'.mem.enter G₁ g σ'.nextFrame, nextFrame := σ'.nextFrame + 1 },
    ψ, by simp [invoke, started'], le, ?_⟩
  refine .running pair ?_ ?_ ?_
  · exact others.mono le (fun w member i => enter_below common.below member i)
      fun w member i => enter_below common.below' member i
  · rw [frame, frame']
    refine common.enter G g (Nat.le_succ _) (Nat.lt_succ_self _) ?_ ?_
    · exact List.nodup_cons.mpr
        ⟨fun member => Nat.lt_irrefl _ (common.below' _ member), common.nodup'⟩
    · intro k member
      rcases List.mem_cons.mp member with rfl | member
      · exact Nat.lt_succ_self _
      · exact Nat.lt_succ_of_lt (common.below' k member)
  · refine matches_enter_source common.fresh common.unused (fun i n size => ?_) ?_
      (matches_enter_target common.fresh' memory)
    · rw [enter_size_self, tailed.allocSize_eq, size]
    · intro x i rel
      exact absurd rel (common.fresh' x)

/-- The activation on top goes on, in memories with the same objects. -/
theorem sim_stay {b b' : Activation} {world world' : World} (pair : Paired S φ m m' b b')
    (frame : b.frame = a.frame) (frame' : b'.frame = a'.frame)
    (others : Below S φ σ.mem σ'.mem below below')
    (common : Common φ (a.frame :: below.map Activation.frame)
    (a'.frame :: below'.map Activation.frame) σ σ')
    (size : m.size = σ.mem.size) (size' : m'.size = σ'.mem.size)
    (memory : m.Matches φ.toRenaming (keep S.program below) m') (sameWorld : world' = world) :
    Sim S φ (.running (b :: below) { σ with mem := m, world := world })
      (.running (b' :: below') { σ' with mem := m', world := world' }) := by
  refine .running pair ?_ ?_ memory
  · exact others.mono (fun rel => rel) (fun _ _ _ => congrFun size _) fun _ _ _ => congrFun size' _
  · rw [frame, frame']
    exact { common with world := sameWorld, live := fun live => common.live (size ▸ live) }

theorem Paired.of_size (pair : Paired S φ σ.mem σ'.mem a a') (size : m.size = σ.mem.size)
    (size' : m'.size = σ'.mem.size) : Paired S φ m m' a a' :=
  pair.mono (fun rel => rel) (fun _ => congrFun size _) fun _ => congrFun size' _

/-- What is not part of the program answers alike, in memories that match. -/
theorem callExternal_optimized (respects : S.externals.Respects) {kept : Obj → Prop} {m₁ : Mem}
    {name : String} {world world' world₁ : World} {v : Option Val}
    (memory : m.Matches φ.toRenaming kept m')
    (sames : List.Forall₂ (Val.Matches φ.toRenaming) args args') (same : world' = world)
    (passed : ∀ p, Val.ptr p ∈ args → kept p.obj)
    (answered : callExternal S.externals name args m world = some (v, m₁, world₁)) :
    ∃ v' m₁', callExternal (optimized S).externals name args' m' world' =
      some (v', m₁', world₁) ∧ (v.getD .undef).Matches φ.toRenaming (v'.getD .undef) ∧
        m₁.Matches φ.toRenaming kept m₁' ∧ m₁.size = m.size ∧ m₁'.size = m'.size := by
  rw [same]
  exact callExternal_respects respects memory sames passed answered

section

variable (wellFormed : S.program.WellFormed) (respects : S.externals.Respects)
  (others : Below S φ σ.mem σ'.mem below below')
  (common : Common φ (a.frame :: below.map Activation.frame)
    (a'.frame :: below'.map Activation.frame) σ σ')
  (memory : σ.mem.Matches φ.toRenaming (keep S.program below) σ'.mem)
include wellFormed respects others common memory

section

variable (h : PairedIn S φ σ.mem σ'.mem F F' a a')
include h

/-- A call that the pass leaves alone. -/
theorem sim_call {inst : Inst} {tail tail' : List Inst} {data : InstData}
    (rest : a.rest = inst :: tail) (rest' : a'.rest = inst :: tail')
    (same : F'.insts inst = F.insts inst) (found : F.insts inst = some data)
    (later : Rest (siteIn S.program a.func) F F' tail tail')
    (notWaiting : waiting S.program a = false)
    (sames : List.Forall₂ (Val.Matches φ.toRenaming) args args')
    (kept : ∀ p, Val.ptr p ∈ args → isDeclared S.program callee = true → keep S.program below p.obj)
    (moved : S.moveCall F a callee args σ = some (mv, σ₁))
    (applied : S.apply a below (mv, σ₁) = some s) :
    ∃ mv' σ₁' t ψ, (optimized S).moveCall F' a' callee args' σ' = some (mv', σ₁') ∧
      (optimized S).apply a' below' (mv', σ₁') = some t ∧ φ.Grows ψ ∧ Sim S ψ s t := by
  unfold Setting.moveCall at moved ⊢
  cases calleeData : S.program.funcData callee with
  | none => simp [calleeData] at moved
  | some G =>
    rw [calleeData] at moved
    simp only at moved
    obtain ⟨G', calleeData', tailed⟩ := run_funcData wellFormed calleeData
    have calleeData' : (optimized S).program.funcData callee = some G' := calleeData'
    rw [calleeData']
    simp only
    split at moved
    · next declared =>
        obtain ⟨⟨v, m₁, world⟩, answered, continued⟩ := Option.bind_eq_some_iff.mp moved
        obtain ⟨b, resumed, same'⟩ := Option.map_eq_some_iff.mp continued
        cases same'
        obtain rfl := Option.some.inj applied
        rw [if_pos (tailed.layout_nil.mpr declared), tailed.name]
        obtain ⟨v', m₁', answered', value, memory₁, size, size'⟩ :=
          callExternal_optimized respects memory sames common.world
            (fun p member => kept p member (by simp [isDeclared, calleeData, declared])) answered
        simp only [Activation.resume, rest, found, Option.map_some, Option.some.injEq] at resumed
        subst resumed
        refine ⟨_, _, _, φ, by rw [answered']; simp only [Option.bind_some, Activation.resume,
          rest', same, found, Option.map_some]; rfl, rfl, fun rel => rel, ?_⟩
        have defined : Paired S φ σ.mem σ'.mem (a.define inst ((v.getD .undef).fit data.ty))
            (a'.define inst ((v'.getD .undef).fit data.ty)) :=
          ⟨F, F', h.define rest rest' same later (value.fit data.ty)⟩
        exact sim_stay (defined.of_size size size') rfl rfl others common size size' memory₁ rfl
    · next defined =>
        obtain ⟨⟨c, σ₂⟩, invoked, same'⟩ := Option.map_eq_some_iff.mp moved
        cases same'
        obtain rfl := Option.some.inj applied
        rw [if_neg (fun empty => defined (tailed.layout_nil.mp empty))]
        have stack : Below S φ σ.mem σ'.mem (a :: below) (a' :: below') :=
          .cons ⟨F, F', h⟩ notWaiting ⟨F, inst, tail, data, h.data, rest, found⟩ others
        obtain ⟨c', σ₂', ψ, invoked', grows, sim⟩ := sim_push wellFormed calleeData calleeData'
          stack common (matches_keep_cons memory) sames invoked
        exact ⟨_, _, _, ψ, by rw [invoked']; rfl, rfl, grows, sim⟩

/-- A tail call that was there before the pass. -/
theorem sim_tailCall (sames : List.Forall₂ (Val.Matches φ.toRenaming) args args')
    (kept : ∀ p, Val.ptr p ∈ args → isDeclared S.program callee = true → keep S.program below p.obj)
    (moved : S.moveTailCall F a callee args σ = some (mv, σ₁))
    (applied : S.apply a below (mv, σ₁) = some s) :
    ∃ mv' σ₁' t ψ, (optimized S).moveTailCall F' a' callee args' σ' = some (mv', σ₁') ∧
      (optimized S).apply a' below' (mv', σ₁') = some t ∧ φ.Grows ψ ∧ Sim S ψ s t := by
  unfold Setting.moveTailCall at moved ⊢
  rw [h.func]
  split at moved
  · next isSelf =>
      rw [if_pos isSelf]
      obtain ⟨b, started, same⟩ := Option.map_eq_some_iff.mp moved
      cases same
      obtain rfl := Option.some.inj applied
      obtain ⟨b', started', pair, frame, frame'⟩ := start_paired wellFormed h.data h.data' h.tailed
        h.frame h.objects h.objects' sames started
      refine ⟨_, _, _, φ, by rw [started']; rfl, rfl, fun rel => rel, ?_⟩
      refine .running pair others ?_ memory
      rw [frame, frame']
      exact common
  · next notSelf =>
      rw [if_neg notSelf]
      obtain ⟨othersR, commonR, memoryR⟩ := released others common memory ⟨F, F', h⟩
      rw [h.func] at othersR commonR memoryR
      cases calleeData : S.program.funcData callee with
      | none => simp [calleeData] at moved
      | some G =>
        simp only [calleeData] at moved
        obtain ⟨G', calleeData', tailed⟩ := run_funcData wellFormed calleeData
        have calleeData' : (optimized S).program.funcData callee = some G' := calleeData'
        simp only [calleeData']
        split at moved
        · next declared =>
            obtain ⟨⟨v, m₁, world⟩, answered, same⟩ := Option.map_eq_some_iff.mp moved
            cases same
            rw [if_pos (tailed.layout_nil.mpr declared), tailed.name]
            obtain ⟨v', m₁', answered', value, memory₁, size, size'⟩ :=
              callExternal_optimized respects memoryR sames common.world (fun p member =>
                kept p member (by simp [isDeclared, calleeData, declared])) answered
            have othersM : Below S φ m₁ m₁' below below' := othersR.mono (fun rel => rel)
              (fun _ _ _ => congrFun size _) fun _ _ _ => congrFun size' _
            have commonM : Common φ (below.map Activation.frame) (below'.map Activation.frame)
                (⟨m₁, σ.nextFrame, world⟩ : Shared World) ⟨m₁', σ'.nextFrame, world⟩ :=
              { commonR with world := rfl, live := fun live => commonR.live (size ▸ live) }
            obtain ⟨t, returned', sim⟩ :=
              sim_returnTo wellFormed othersM commonM memory₁ value applied
            exact ⟨.pop v', ⟨m₁', σ'.nextFrame, world⟩, t, φ, by rw [answered']; rfl, returned',
              fun rel => rel, sim⟩
        · next defined =>
            obtain ⟨⟨c, σ₂⟩, invoked, same⟩ := Option.map_eq_some_iff.mp moved
            cases same
            obtain rfl := Option.some.inj applied
            rw [if_neg (fun empty => defined (tailed.layout_nil.mp empty))]
            obtain ⟨c', σ₂', ψ, invoked', grows, sim⟩ :=
              sim_push wellFormed calleeData calleeData' othersR commonR memoryR sames invoked
            exact ⟨_, _, _, ψ, by rw [invoked']; rfl, rfl, grows, sim⟩

/-- A rewritten call. -/
theorem sim_site (waits : Waits S a) (sames : List.Forall₂ (Val.Matches φ.toRenaming) args args')
    (kept : ∀ p, Val.ptr p ∈ args → owns a p.obj = false ∧
      (isDeclared S.program callee = true → keep S.program below p.obj))
    (moved : S.moveCall F a callee args σ = some (mv, σ₁))
    (applied : S.apply a below (mv, σ₁) = some s) :
    ∃ mv' σ₁' t ψ, (optimized S).moveTailCall F' a' callee args' σ' = some (mv', σ₁') ∧
      (optimized S).apply a' below' (mv', σ₁') = some t ∧ φ.Grows ψ ∧ Sim S ψ s t := by
  unfold Setting.moveCall at moved
  unfold Setting.moveTailCall
  rw [h.func]
  obtain ⟨othersW, commonW, memoryW⟩ := released_waiting others common memory waits ⟨F, F', h⟩
  rw [h.func] at othersW commonW memoryW
  cases calleeData : S.program.funcData callee with
  | none => simp [calleeData] at moved
  | some G =>
    rw [calleeData] at moved
    simp only at moved
    obtain ⟨G', calleeData', tailed⟩ := run_funcData wellFormed calleeData
    by_cases isSelf : callee = a.func
    · -- the frame stays in use, now for the new activation
      subst isSelf
      obtain rfl := Option.some.inj (h.data.symm.trans calleeData)
      have defined : F.layout ≠ [] := by
        obtain ⟨_, call, _, _, _, _, _, -, -, isSite, -⟩ := waits.code
        intro empty
        simp [siteIn, h.data, TailCallElim.isSite, sites, empty] at isSite
      rw [if_pos rfl]
      rw [if_neg defined] at moved
      obtain ⟨⟨c, σ₂⟩, invoked, same⟩ := Option.map_eq_some_iff.mp moved
      cases same
      obtain rfl := Option.some.inj applied
      obtain ⟨c₀, started, same⟩ := Option.map_eq_some_iff.mp invoked
      cases same
      set ψ := φ.add σ.nextFrame a'.frame common.fresh with ψDef
      have le : φ.Grows ψ := fun rel => .inl rel
      have newFrame : ψ.rel σ.nextFrame a'.frame := .inr ⟨rfl, rfl⟩
      obtain ⟨c', started', pair, frame, frame'⟩ := start_paired wellFormed h.data h.data'
        h.tailed newFrame (fun i => @enter_size_self σ.mem F a.func σ.nextFrame i) h.objects'
        (sames.imp fun _ _ h => h.mono (FrameMap.toRenaming_mono le)) started
      refine ⟨.replace c', σ', _, ψ, by rw [started']; rfl, rfl, le, .running pair ?_ ?_ ?_⟩
      · refine .wait waits (others.mono le (fun w member i => enter_below (fun k inStack => ?_)
          member i) fun _ _ _ => rfl)
        exact common.below k (by simp [inStack])
      · rw [frame, frame']
        exact common.enter F a.func (Nat.le_refl _) (common.below' _ (by simp)) common.nodup'
          common.below'
      · refine matches_enter_source common.fresh common.unused
          (fun i n size => (h.objects' i).trans size) ?_ (matches_keep_cons memory)
        intro x i rel kept live
        by_contra allocated
        have own : σ.mem.size (.stack a.frame a.func i) ≠ none := by rwa [h.objects]
        have same := memory.apart (fun w member => kept w (by simp [member]))
          (keep_own common i) live own ⟨_, rel, rfl⟩ ⟨_, h.frame, rfl⟩
        have isOwn := kept a (by simp) (waits_waiting waits)
        rw [same, owns_iff.mpr ⟨i, rfl⟩] at isOwn
        cases isOwn
    · rw [if_neg isSelf]
      have calleeData' : (optimized S).program.funcData callee = some G' := calleeData'
      simp only [calleeData']
      split at moved
      · next declared =>
          obtain ⟨⟨v, m₁, world⟩, answered, continued⟩ := Option.bind_eq_some_iff.mp moved
          obtain ⟨b, resumed, same'⟩ := Option.map_eq_some_iff.mp continued
          cases same'
          obtain rfl := Option.some.inj applied
          rw [if_pos (tailed.layout_nil.mpr declared), tailed.name]
          have kept' : ∀ p, Val.ptr p ∈ args → keep S.program (a :: below) p.obj := by
            intro p member w inStack isWaiting
            rcases List.mem_cons.mp inStack with rfl | inStack
            · exact (kept p member).1
            · exact (kept p member).2 (by simp [isDeclared, calleeData, declared]) w
                inStack isWaiting
          obtain ⟨v', m₁', answered', value, memory₁, size, size'⟩ :=
            callExternal_optimized respects memoryW sames common.world kept' answered
          obtain ⟨ends, func, frame⟩ := waits.resume wellFormed h.data value resumed
          have othersM : Below S φ m₁ m₁' below below' := by
            cases othersW with
            | wait _ later =>
              exact later.mono (fun rel => rel) (fun _ _ _ => congrFun size _)
                fun _ _ _ => congrFun size' _
            | cons _ notWaiting => simp [waits_waiting waits] at notWaiting
          obtain ⟨t, returned'⟩ := othersM.returns v' ⟨m₁', σ'.nextFrame, world⟩
          refine ⟨.pop v', ⟨m₁', σ'.nextFrame, world⟩, t, φ, by rw [answered']; rfl, returned',
            fun rel => rel, ?_⟩
          refine .ending ends othersM ?_
            (Matches.weaken memory₁ fun {o} keptObj _ => ?_) returned'
          · rw [frame]
            exact { commonW with world := rfl, live := fun live => commonW.live (size ▸ live) }
          · refine ⟨?_, rfl, rfl⟩
            intro w member isWaiting
            rcases List.mem_cons.mp member with rfl | member
            · have sameOwner : owns b o = owns w o := by
                cases o <;> simp [owns, func, frame]
              rw [← sameOwner]
              exact keptObj.2
            · exact keptObj.1 w member isWaiting
      · next defined =>
          obtain ⟨⟨c, σ₂⟩, invoked, same⟩ := Option.map_eq_some_iff.mp moved
          cases same
          obtain rfl := Option.some.inj applied
          rw [if_neg (fun empty => defined (tailed.layout_nil.mp empty))]
          obtain ⟨c', σ₂', ψ, invoked', grows, sim⟩ :=
            @sim_push _ S φ σ { σ' with mem := σ'.mem.release a.func a'.frame } wellFormed G G'
              callee calleeData calleeData' _ _ othersW commonW memoryW _ _ sames _ _ invoked
          exact ⟨_, _, _, ψ, by rw [invoked']; rfl, rfl, grows, sim⟩

end

/-- One step of an activation that has a counterpart. -/
theorem sim_step_running (pair : Paired S φ σ.mem σ'.mem a a')
    (clean : Clean S (.running (a :: below) σ))
    (stepped : S.step (.running (a :: below) σ) = some s) :
    ∃ t ψ, (optimized S).step (.running (a' :: below') σ') = some t ∧ φ.Grows ψ ∧ Sim S ψ s t ∧
      Option.Rel (Val.Matches φ.toRenaming) (S.loaded (.running (a :: below) σ))
        ((optimized S).loaded (.running (a' :: below') σ')) := by
  obtain ⟨F, F', h⟩ := pair
  obtain ⟨⟨mv, σ₁⟩, moved, applied⟩ := Option.bind_eq_some_iff.mp stepped
  have funcData' : (optimized S).program.funcData a'.func = some F' := h.func.symm ▸ h.data'
  have ctx := optimized_ctx wellFormed
  cases rest : a.rest with
  | nil => simp [Setting.move, h.data, rest] at moved
  | cons inst tail =>
    simp only [Setting.move, h.data, rest] at moved
    cases executed : exec S.ctx F a σ.mem inst with
    | none => simp [executed] at moved
    | some e =>
      rw [executed] at moved
      obtain ⟨data, found⟩ := exec_isSome executed
      obtain ⟨touches, passes⟩ := clean F h.data inst (by simp [rest]) data found
      by_cases isSite : siteIn S.program a.func inst = true
      · -- a rewritten call
        have code := h.rest
        rw [rest] at code
        generalize after : a'.rest = rest' at code
        cases code with
        | cons _ notSite => simp [isSite] at notSite
        | @tail _ ret tailCall ty callee args value isSite isCall isRet returns isTail =>
          obtain rfl := Option.some.inj (isCall.symm.trans found)
          have waits : Waits S a :=
            ⟨F, inst, ret, ty, callee, args, value, h.data, rest, isSite, isCall, isRet, returns⟩
          simp only [exec, isCall, Option.map_eq_some_iff] at executed
          obtain ⟨vals, operands, rfl⟩ := executed
          obtain ⟨vals', operands', sames⟩ := Ctx.operands_matches
            (fun i _ => h.operandMatches i) operands
          obtain ⟨pointers, isPassed, all⟩ := mem_passed (.inl rfl) operands
          obtain ⟨mv', σ₁', t, ψ, moved', applied', grows, sim⟩ :=
            sim_site wellFormed respects others common memory h waits sames
              (fun p member => (passes _ isPassed p (all p member)).imp_left
              fun own => own isSite) moved applied
          refine ⟨t, ψ, ?_, grows, sim, ?_⟩
          · have executed' : exec (optimized S).ctx F' a' σ'.mem tailCall =
                some (.tailCall callee vals') := by
              simp [exec, isTail, ctx, operands']
            simp only [Setting.step, Setting.move, funcData', after, executed', moved',
              Option.bind_some, applied']
          · have isCall' : F.kind inst = some (.call callee args) := by
              simp [FunctionData.kind, isCall]
            have isTail' : F'.kind tailCall = some (.tailCall callee args) := by
              simp [FunctionData.kind, isTail]
            simp only [Setting.loaded, h.data, rest, funcData', after, isCall', isTail']
            exact .none
      · have notSite : siteIn S.program a.func inst = false := by simpa using isSite
        have notWaiting : waiting S.program a = false := by simp [waiting, rest, notSite]
        obtain ⟨tail', rest', same, later⟩ := h.head rest notSite
        obtain ⟨e', executed', effects⟩ := exec_matches found (same.trans found)
          (fun i _ => h.operandMatches i) (fun _ => ⟨a'.frame, h.frame, by rw [h.func]⟩) memory
          (fun {o} touched => touches o touched) executed
        rw [← ctx] at executed'
        have loads : Option.Rel (Val.Matches φ.toRenaming) (S.loaded (.running (a :: below) σ))
            ((optimized S).loaded (.running (a' :: below') σ')) := by
          have kind' : F'.kind inst = F.kind inst := by simp [FunctionData.kind, same]
          simp only [Setting.loaded, h.data, rest, funcData', rest', executed, executed', kind']
          cases F.kind inst with
          | none => exact .none
          | some kind =>
            cases kind
            case load src =>
                cases effects with
                | value value => exact .some value
                | write | goto | call | tailCall | ret => exact .none
            all_goals exact .none
        suffices ∃ mv' σ₁' t ψ, (optimized S).move a' σ' = some (mv', σ₁') ∧
            (optimized S).apply a' below' (mv', σ₁') = some t ∧ φ.Grows ψ ∧ Sim S ψ s t by
          obtain ⟨mv', σ₁', t, ψ, moved', applied', grows, sim⟩ := this
          exact ⟨t, ψ, by simp only [Setting.step, moved', Option.bind_some, applied'],
            grows, sim, loads⟩
        simp only [Setting.move, funcData', rest', executed']
        cases effects with
        | value value =>
          cases moved
          obtain rfl := Option.some.inj applied
          refine ⟨_, _, _, φ, rfl, rfl, fun rel => rel, ?_⟩
          exact .running ⟨F, F', h.define rest rest' same later value⟩ others common memory
        | @write m₁ m₁' memory₁ =>
          cases moved
          obtain rfl := Option.some.inj applied
          have size := exec_write_size executed
          have size' := exec_write_size executed'
          refine ⟨_, _, _, φ, rfl, rfl, fun rel => rel, ?_⟩
          have next : Paired S φ σ.mem σ'.mem a.next a'.next :=
            ⟨F, F', h.next rest rest' later⟩
          exact sim_stay (next.of_size size size') rfl rfl others common size size' memory₁
            common.world
        | goto sames =>
          obtain ⟨b, entered, moved⟩ := Option.map_eq_some_iff.mp moved
          cases moved
          obtain rfl := Option.some.inj applied
          obtain ⟨b', entered', pair, -, frame, frame'⟩ :=
            h.enterBlock (wellFormed.function h.data).1 sames entered
          refine ⟨.stay b', σ', _, φ, by simp only [entered', Option.map_some], rfl,
            fun rel => rel, ?_⟩
          refine .running ⟨F, F', pair⟩ others ?_ memory
          rw [frame, frame']
          exact common
        | @call callee vals vals' sames =>
          cases executes_of_exec found executed with | @call _ args _ kind operands =>
          obtain ⟨pointers, isPassed, all⟩ := mem_passed (.inl kind) operands
          exact sim_call wellFormed respects others common memory h rest rest' same found later
            notWaiting sames (fun p member => (passes _ isPassed p (all p member)).2) moved applied
        | @tailCall callee vals vals' sames =>
          cases executes_of_exec found executed with | @tailCall _ args _ kind operands =>
          obtain ⟨pointers, isPassed, all⟩ := mem_passed (.inr kind) operands
          exact sim_tailCall wellFormed respects others common memory h sames
            (fun p member => (passes _ isPassed p (all p member)).2) moved applied
        | ret value =>
          cases moved
          obtain ⟨othersR, commonR, memoryR⟩ := released others common memory ⟨F, F', h⟩
          obtain ⟨t, returned', sim⟩ :=
            sim_returnTo wellFormed othersR commonR memoryR value applied
          exact ⟨_, _, t, φ, rfl, returned', fun rel => rel, sim⟩

end

/-- One step of an activation that returns from a rewritten call; the rewritten
program has already returned. -/
theorem sim_step_ending (wellFormed : S.program.WellFormed) {v' : Option Val}
    {t : Setting.State World} (ends : Ends S φ w v') (others : Below S φ σ.mem σ'.mem below below')
    (common : Common φ (w.frame :: below.map Activation.frame) (below'.map Activation.frame) σ σ')
    (memory : σ.mem.Matches φ.toRenaming (fun o => keep S.program below o ∧
      owns w o = false) σ'.mem)
    (returned : (optimized S).returnTo below' v' σ' = some t)
    (stepped : S.step (.running (w :: below) σ) = some s) :
    Sim S φ s t ∧ S.loaded (.running (w :: below) σ) = none := by
  obtain ⟨F, ret, value, data, rest, isRet, matches_⟩ := ends.code
  obtain ⟨d, found, kind⟩ := Option.map_eq_some_iff.mp isRet
  obtain ⟨⟨mv, σ₁⟩, moved, applied⟩ := Option.bind_eq_some_iff.mp stepped
  simp only [Setting.move, data, rest] at moved
  refine ⟨?_, by simp [Setting.loaded, data, rest, isRet]⟩
  cases executed : exec S.ctx F w σ.mem ret with
  | none => simp [executed] at moved
  | some e =>
    rw [executed] at moved
    obtain ⟨v, rfl⟩ : ∃ v, e = .ret v := by
      cases value <;> simp only [exec, found, kind] at executed
      · exact ⟨none, (Option.some.inj executed).symm⟩
      · obtain ⟨v, -, rfl⟩ := Option.map_eq_some_iff.mp executed
        exact ⟨some v, rfl⟩
    cases moved
    have othersR : Below S φ (σ.mem.release w.func w.frame) σ'.mem below below' :=
      others.mono (fun rel => rel) (fun x member i => release_below common.nodup member i)
        fun _ _ _ => rfl
    have commonR : Common φ (below.map Activation.frame) (below'.map Activation.frame)
        { σ with mem := σ.mem.release w.func w.frame } σ' := by
      refine ⟨common.world, (List.nodup_cons.mp common.nodup).2, common.nodup',
        fun k member => common.below k (by simp [member]), common.below', common.bounds,
        fun live => ?_⟩
      exact common.live fun dead => live (release_size_none dead)
    obtain ⟨t', returned', sim⟩ :=
      sim_returnTo wellFormed othersR commonR (Matches.release memory) (matches_ _ v executed)
        applied
    rwa [Option.some.inj (returned.symm.trans returned')]

end Steps

/-! ## Runs -/

section Runs

variable {s s' t : Setting.State World}

theorem sim_step (wellFormed : S.program.WellFormed) (respects : S.externals.Respects)
    (sim : Sim S φ s t) (clean : Clean S s) (stepped : S.step s = some s') :
    (∃ t' ψ, (optimized S).step t = some t' ∧ φ.Grows ψ ∧ Sim S ψ s' t' ∧
      Option.Rel (Val.Matches φ.toRenaming) (S.loaded s) ((optimized S).loaded t)) ∨
    Sim S φ s' t ∧ S.loaded s = none := by
  cases sim with
  | running pair others common memory =>
    exact .inl (sim_step_running wellFormed respects others common memory pair clean stepped)
  | ending ends others common memory returned =>
    exact .inr (sim_step_ending wellFormed ends others common memory returned stepped)
  | finished => cases stepped

/-- A run without steps that reach a waiting activation is matched by a run of
the rewritten program that loads the same values. -/
theorem sim_run (wellFormed : S.program.WellFormed) (respects : S.externals.Respects) {n : Nat}
    (sim : Sim S φ s t) (clean : ∀ k < n, ∀ u, S.run k s = some u → Clean S u)
    (ran : S.run n s = some s') :
    ∃ m t' ψ, (optimized S).run m t = some t' ∧ φ.Grows ψ ∧ Sim S ψ s' t' ∧
      List.Forall₂ (Val.Matches ψ.toRenaming) (S.loads n s) ((optimized S).loads m t) := by
  induction n generalizing s t φ with
  | zero =>
    obtain rfl := Option.some.inj ran
    exact ⟨0, t, φ, rfl, fun rel => rel, sim, .nil⟩
  | succ n ih =>
    obtain ⟨s₁, stepped, ran⟩ := Option.bind_eq_some_iff.mp ran
    have later : ∀ k < n, ∀ u, S.run k s₁ = some u → Clean S u := by
      intro k lt u reached
      exact clean (k + 1) (Nat.succ_lt_succ lt) u (by simp [Setting.run, stepped, reached])
    have now := clean 0 (Nat.succ_pos n) s rfl
    rcases sim_step wellFormed respects sim now stepped with
      ⟨t₁, ψ, stepped', grows, sim₁, loaded⟩ | ⟨sim₁, silent⟩
    · obtain ⟨m, t', χ, ran', grows', sim', loads⟩ := ih sim₁ later ran
      have both : φ.Grows χ := fun rel => grows' (grows rel)
      refine ⟨m + 1, t', χ, by simp [Setting.run, stepped', ran'], both, sim', ?_⟩
      simp only [Setting.loads, stepped, stepped']
      refine List.rel_append ?_ loads
      generalize S.loaded s = read at loaded
      generalize (optimized S).loaded t = read' at loaded
      cases loaded with
      | none => exact .nil
      | some value => exact .cons (value.mono (FrameMap.toRenaming_mono both)) .nil
    · obtain ⟨m, t', χ, ran', grows, sim', loads⟩ := ih sim₁ later ran
      refine ⟨m, t', χ, ran', grows, sim', ?_⟩
      simpa [Setting.loads, stepped, silent] using loads

/-- Both programs start with the same globals. -/
theorem globalMem_matches (R : Renaming) (P : Program) (keep : Obj → Prop)
    (globalsOnly : ∀ {inst o'}, R.rel (.global inst) o' → o' = .global inst) :
    P.globalMem.Matches R keep P.globalMem := by
  refine ⟨?_, ?_, ?_⟩
  · rintro (inst | ⟨k, f, inst⟩) o' n _ rel size
    · rw [globalsOnly rel]
      exact size
    · cases size
  · rintro (inst | ⟨k, f, inst⟩) o' _ rel live i
    · rw [globalsOnly rel]
      simp only [Program.globalMem]
      split
      · next base init found =>
          cases content : Ctx.constBytes P.globals base init with
          | none => exact .undef _
          | some bytes =>
            rw [Option.bind_some]
            cases byte : bytes[i]? with
            | none => exact .undef _
            | some b => exact Ctx.constBytes_matches R content b (List.mem_of_getElem? byte)
      · exact .undef _
    · exact absurd rfl live
  · rintro (inst₁ | ⟨k₁, f₁, i₁⟩) (inst₂ | ⟨k₂, f₂, i₂⟩) o' _ _ live₁ live₂ rel₁ rel₂
    · exact (globalsOnly rel₁).symm.trans (globalsOnly rel₂)
    · exact absurd rfl live₂
    · exact absurd rfl live₁
    · exact absurd rfl live₁

theorem sim_start (wellFormed : S.program.WellFormed) {world : World}
    (started : S.start world = some s) :
    ∃ t φ, (optimized S).start world = some t ∧ Sim S φ s t := by
  obtain ⟨main, isMain, initial⟩ := Option.bind_eq_some_iff.mp started
  obtain ⟨F, data, invoked'⟩ := Option.bind_eq_some_iff.mp initial
  obtain ⟨⟨c, σ₁⟩, invoked, rfl⟩ := Option.map_eq_some_iff.mp invoked'
  have sameMem : (run S.program).globalMem = S.program.globalMem := by
    simp only [Program.globalMem, (run_spec wellFormed).1]
  have common : Common FrameMap.empty (([] : List Activation).map Activation.frame)
      (([] : List Activation).map Activation.frame)
      (⟨S.program.globalMem, 0, world⟩ : Shared World)
      ⟨(run S.program).globalMem, 0, world⟩ := by
    refine ⟨rfl, by simp, by simp, by simp, by simp, fun rel => rel.elim, fun live => ?_⟩
    exact absurd rfl live
  have memory : S.program.globalMem.Matches FrameMap.empty.toRenaming (keep S.program [])
      (run S.program).globalMem := by
    rw [sameMem]
    exact globalMem_matches _ _ _ fun rel => rel
  obtain ⟨G', data', -⟩ := run_funcData wellFormed data
  obtain ⟨c', σ₁', ψ, invoked', -, sim⟩ :=
    sim_push wellFormed data data' .nil common memory .nil invoked
  refine ⟨.running [c'] σ₁', ψ, ?_, sim⟩
  simp only [Setting.start, optimized, (run_spec wellFormed).2.1, isMain, Option.bind_some,
    Setting.initial, data', invoked', Option.map_some]

/-- The run from `s` to `s'` has a counterpart in the rewritten program that loads
the same values, in the same order, and ends with the same value and the same
outside world; addresses are compared up to the names of the frames. -/
def LoadsSame (S : Setting World) (world : World) (n : Nat) (s s' : Setting.State World) : Prop :=
  ∃ t m t', ∃ φ : FrameMap, (optimized S).start world = some t ∧ (optimized S).run m t = some t' ∧
    List.Forall₂ (Val.Matches φ.toRenaming) (S.loads n s) ((optimized S).loads m t) ∧
    ∀ v σ, s' = .finished v σ → ∃ v' σ', t' = .finished v' σ' ∧
      (v.getD .undef).Matches φ.toRenaming (v'.getD .undef) ∧ σ'.world = σ.world

/-- In every run in which no step reaches an object of an activation that waits
in a rewritten call, the rewritten program loads the same values. -/
theorem run_loads_same (wellFormed : S.program.WellFormed) (respects : S.externals.Respects)
    {world : World} {n : Nat} (started : S.start world = some s) (ran : S.run n s = some s')
    (clean : ∀ k < n, ∀ u, S.run k s = some u → Clean S u) : LoadsSame S world n s s' := by
  obtain ⟨t, φ, started', sim⟩ := sim_start wellFormed started
  obtain ⟨m, t', ψ, ran', -, sim', loads⟩ := sim_run wellFormed respects sim clean ran
  refine ⟨t, m, t', ψ, started', ran', loads, ?_⟩
  rintro v σ rfl
  cases sim' with
  | finished value world memory => exact ⟨_, _, rfl, value, world⟩

end Runs

/-! ## A function that calls itself with a pointer -/

/-- `f(p, n)` writes `n` to a local variable, reads `*p`, and for `n ≠ 0` returns
`f(arg, n - 1)`.  The second argument of `main`'s call is 1. -/
def descend (arg : Inst) : Listing where
  retTy := .int32
  name := "f"
  paramsTy := [.pointer .int32, .int32]
  layout := [(1, [10, 11, 12, 13]), (2, [14, 15, 16]), (3, [17])]
  insts := [(1, ⟨.pointer .int32, .blockArgRef 0⟩), (2, ⟨.int32, .blockArgRef 1⟩),
    (3, ⟨.int32, .integer 1⟩),
    (10, ⟨.pointer .int32, .alloc⟩), (11, ⟨.unit, .store 2 10⟩), (12, ⟨.int32, .load 1⟩),
    (13, ⟨.unit, .branch 2 2 [] 3 []⟩),
    (14, ⟨.int32, .binary .sub 2 3⟩), (15, ⟨.int32, .call 0 [arg, 14]⟩),
    (16, ⟨.unit, .ret (some 15)⟩),
    (17, ⟨.unit, .ret (some 12)⟩)]
  nextInst := 18
  blockParams := [(1, [1, 2])]
  nextBlock := 4

def descendMain : Listing where
  retTy := .int32
  name := "main"
  paramsTy := []
  layout := [(1, [10, 11, 12, 13])]
  insts := [(1, ⟨.int32, .integer 1⟩), (2, ⟨.int32, .integer 7⟩),
    (10, ⟨.pointer .int32, .alloc⟩), (11, ⟨.unit, .store 2 10⟩),
    (12, ⟨.int32, .call 0 [10, 1]⟩), (13, ⟨.unit, .ret (some 12)⟩)]
  nextInst := 14
  blockParams := []
  nextBlock := 2

def descendProgram (arg : Inst) : Program := .ofListings [descend arg, descendMain] [] 1

def descendSetting (arg : Inst) : Setting Unit := .closed (descendProgram arg)

theorem descendProgram_wellFormed {arg : Inst} (known : arg = 1 ∨ arg = 10) :
    (descendProgram arg).WellFormed := by
  apply Program.wellFormed_ofListings
  rcases known with rfl | rfl <;> decide +kernel

/-- When `f` passes its local variable, the variable is overwritten before it is
read: the rewritten function reads 0 in place of 1. -/
theorem run_reads_overwritten :
    (descendProgram 10).WellFormed ∧ ∃ n s s', (descendSetting 10).start () = some s ∧
      (descendSetting 10).run n s = some s' ∧ ¬ LoadsSame (descendSetting 10) () n s s' := by
  refine ⟨descendProgram_wellFormed (.inr rfl), ?_⟩
  have before : (descendSetting 10).evalCall 30 1 []
      ⟨(descendProgram 10).globalMem, 0, ()⟩ = some (some (.int 1)) := by decide +kernel
  have after : (optimized (descendSetting 10)).evalCall 30 1 []
      ⟨(run (descendProgram 10)).globalMem, 0, ()⟩ = some (some (.int 0)) := by decide +kernel
  obtain ⟨σ', s, started, n, ran⟩ := Setting.returns_of_evalCall before
  refine ⟨n, s, _, started, ran, ?_⟩
  rintro ⟨t, m, t', φ, started', ran', -, ends⟩
  obtain ⟨v', τ, rfl, value, -⟩ := ends _ _ rfl
  obtain ⟨τ', changed⟩ := Setting.returns_of_evalCall after
  have isMain : (optimized (descendSetting 10)).program.mainFunction = some 1 :=
    (run_spec (descendProgram_wellFormed (.inr rfl))).2.1
  obtain rfl := (Setting.returns_of_start isMain started' ran').unique changed
  cases value

/-- Every step of a run is clean. -/
def cleanRun (S : Setting World) : Nat → Setting.State World → Bool
  | 0, _ => true
  | n + 1, s => decide (Clean S s) &&
      match S.step s with
      | some next => cleanRun S n next
      | none => true

theorem clean_of_cleanRun {n : Nat} {s : Setting.State World} (h : cleanRun S n s = true) :
    ∀ k < n, ∀ u, S.run k s = some u → Clean S u := by
  induction n generalizing s with
  | zero => exact fun k lt => absurd lt (Nat.not_lt_zero k)
  | succ n ih =>
    simp only [cleanRun, Bool.and_eq_true, decide_eq_true_eq] at h
    intro k lt u reached
    cases k with
    | zero =>
      obtain rfl := Option.some.inj reached
      exact h.1
    | succ k =>
      obtain ⟨s₁, stepped, reached⟩ := Option.bind_eq_some_iff.mp reached
      rw [stepped] at h
      exact ih h.2 k (Nat.lt_of_succ_lt_succ lt) u reached

/-- When `f` passes its own parameter on, both programs read 7 twice. -/
theorem run_loads_same_descend :
    ∃ s s', (descendSetting 1).start () = some s ∧ (descendSetting 1).run 16 s = some s' ∧
      (descendSetting 1).loads 16 s = [.int 7, .int 7] ∧
        LoadsSame (descendSetting 1) () 16 s s' := by
  have respects : (descendSetting 1).externals.Respects :=
    ⟨fun _ _ _ answered => by cases answered⟩
  have checked : ((descendSetting 1).start ()).any (fun s =>
      cleanRun (descendSetting 1) 16 s && ((descendSetting 1).run 16 s).isSome &&
        (descendSetting 1).loads 16 s = [.int 7, .int 7]) = true := by decide +kernel
  obtain ⟨s, started, checked⟩ := Option.any_eq_true _ _ |>.mp checked
  simp only [Bool.and_eq_true, decide_eq_true_eq] at checked
  obtain ⟨⟨clean, finishes⟩, loads⟩ := checked
  obtain ⟨s', ran⟩ := Option.isSome_iff_exists.mp finishes
  exact ⟨s, s', started, ran, loads, run_loads_same (descendProgram_wellFormed (.inl rfl)) respects
    started ran (clean_of_cleanRun clean)⟩

end AnonCompiler.Opt.TailCallElim
