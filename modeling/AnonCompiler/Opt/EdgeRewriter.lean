import AnonCompiler.Ir.Cfg

/-!
# Rewriting the arms of terminators

`LogicalEdgeRewriter` of `opt/utils/logical_edge.rs`.  A terminator is copied when the
first of its arms is edited, and all copies are put in place at the end, so two arms of
one branch are edited apart.  The latest copy of a terminator is the one that counts.
-/

set_option autoImplicit false

namespace AnonCompiler.Opt

open Ir

inductive TerminatorRewrite where
  | jump (target : BasicBlock) (args : List Inst)
  | branch (cond : Inst) (tTarget : BasicBlock) (tArgs : List Inst) (fTarget : BasicBlock)
      (fArgs : List Inst)
deriving DecidableEq, Repr

namespace TerminatorRewrite

def kind : TerminatorRewrite → InstKind
  | jump target args => .jump target args
  | branch cond tTarget tArgs fTarget fArgs => .branch cond tTarget tArgs fTarget fArgs

/-- `snapshot_terminator`, of the kind of a terminator. -/
def snapshot : InstKind → Option TerminatorRewrite
  | .jump target args => some (jump target args)
  | .branch cond tTarget tArgs fTarget fArgs => some (branch cond tTarget tArgs fTarget fArgs)
  | _ => none

/-- Edit the target and the arguments of one arm. -/
def edit (arm : LogicalEdgeArm) (change : BasicBlock × List Inst → BasicBlock × List Inst) :
    TerminatorRewrite → Option TerminatorRewrite
  | jump target args =>
    match arm with
    | .jump => some (jump (change (target, args)).1 (change (target, args)).2)
    | _ => none
  | branch cond tTarget tArgs fTarget fArgs =>
    match arm with
    | .onTrue =>
      some (branch cond (change (tTarget, tArgs)).1 (change (tTarget, tArgs)).2 fTarget fArgs)
    | .onFalse =>
      some (branch cond tTarget tArgs (change (fTarget, fArgs)).1 (change (fTarget, fArgs)).2)
    | _ => none

end TerminatorRewrite

structure LogicalEdgeRewriter where
  pending : List (Inst × TerminatorRewrite)

namespace LogicalEdgeRewriter

def new : LogicalEdgeRewriter := ⟨[]⟩

def edit (F : FunctionData) (r : LogicalEdgeRewriter) (edge : LogicalEdge)
    (change : BasicBlock × List Inst → BasicBlock × List Inst) : Option LogicalEdgeRewriter :=
  ((r.pending.lookup edge.terminator).or
      ((F.kind edge.terminator).bind TerminatorRewrite.snapshot)).bind fun rewrite =>
    (rewrite.edit edge.arm change).map fun edited => ⟨(edge.terminator, edited) :: r.pending⟩

def retarget (F : FunctionData) (r : LogicalEdgeRewriter) (edge : LogicalEdge) (target : BasicBlock)
    (args : List Inst) : Option LogicalEdgeRewriter :=
  r.edit F edge fun _ => (target, args)

/-- The function with the copies in place, and whether there are any. -/
def apply (F : FunctionData) (r : LogicalEdgeRewriter) : FunctionData × Bool :=
  ({ F with
      insts := fun inst =>
        match r.pending.lookup inst with
        | some rewrite => (F.insts inst).map fun _ => ⟨.unit, rewrite.kind⟩
        | none => F.insts inst },
    !r.pending.isEmpty)

end LogicalEdgeRewriter

/-! ## Moving arms to another block -/

/-- The terminator with some arms going to `n`. -/
def redirected (moved : LogicalEdgeArm → Bool) (n : BasicBlock) : InstKind → InstKind
  | .jump target args => .jump (if moved .jump then n else target) args
  | .branch cond tTarget tArgs fTarget fArgs =>
    .branch cond (if moved .onTrue then n else tTarget) tArgs
      (if moved .onFalse then n else fTarget) fArgs
  | kind => kind

/-- The arms of a terminator among the edges. -/
def movedBy (edges : List LogicalEdge) (inst : Inst) (arm : LogicalEdgeArm) : Bool :=
  edges.any fun e => e.terminator = inst && e.arm = arm

section Redirect

variable {F : FunctionData} {n bb : BasicBlock} {kind : InstKind} {moved : LogicalEdgeArm → Bool}
  {edges : List LogicalEdge} {e : LogicalEdge} {inst : Inst} {r : LogicalEdgeRewriter}

theorem redirected_none (none : ∀ arm, moved arm = false) : redirected moved n kind = kind := by
  cases kind <;> simp [redirected, none]

/-- An edge is an arm of a jump or of a branch. -/
theorem kind_of_edge (leaves : e ∈ F.outgoingEdges bb) :
    (e.arm = .jump ∧ F.kind e.terminator = some (.jump e.target e.args)) ∨
      (∃ cond fTarget fArgs, e.arm = .onTrue ∧
        F.kind e.terminator = some (.branch cond e.target e.args fTarget fArgs)) ∨
      ∃ cond tTarget tArgs, e.arm = .onFalse ∧
        F.kind e.terminator = some (.branch cond tTarget tArgs e.target e.args) := by
  unfold FunctionData.outgoingEdges at leaves
  split at leaves
  · cases leaves
  · next terminator isTerminator =>
      split at leaves
      · next target args isJump =>
          obtain rfl := List.mem_singleton.mp leaves
          exact .inl ⟨rfl, isJump⟩
      · next cond tTarget tArgs fTarget fArgs isBranch =>
          rcases List.mem_cons.mp leaves with rfl | isFalse
          · exact .inr (.inl ⟨cond, fTarget, fArgs, rfl, isBranch⟩)
          · obtain rfl := List.mem_singleton.mp isFalse
            exact .inr (.inr ⟨cond, tTarget, tArgs, rfl, isBranch⟩)
      · cases leaves

theorem terminator_of_edge (leaves : e ∈ F.outgoingEdges bb) :
    e.source = bb ∧ F.terminator bb = some e.terminator := by
  unfold FunctionData.outgoingEdges at leaves
  split at leaves
  · cases leaves
  · next terminator isTerminator =>
      split at leaves
      · obtain rfl := List.mem_singleton.mp leaves
        exact ⟨rfl, isTerminator⟩
      · rcases List.mem_cons.mp leaves with rfl | isFalse
        · exact ⟨rfl, isTerminator⟩
        · obtain rfl := List.mem_singleton.mp isFalse
          exact ⟨rfl, isTerminator⟩
      · cases leaves

/-- An arm of a terminator has one target. -/
theorem edge_target_eq {e' : LogicalEdge} {bb' : BasicBlock} (leaves : e ∈ F.outgoingEdges bb)
    (leaves' : e' ∈ F.outgoingEdges bb') (same : e'.terminator = e.terminator)
    (sameArm : e'.arm = e.arm) : e'.target = e.target := by
  have first := kind_of_edge leaves
  have second := kind_of_edge leaves'
  rw [same, sameArm] at second
  rcases first with ⟨isArm, isKind⟩ | ⟨_, _, _, isArm, isKind⟩ | ⟨_, _, _, isArm, isKind⟩ <;>
    simp_all

/-- Moving one more arm. -/
theorem edit_snapshot (moved : LogicalEdgeArm → Bool) (n : BasicBlock)
    (leaves : e ∈ F.outgoingEdges bb) (isKind : F.kind e.terminator = some kind) :
    ∃ rewrite edited, TerminatorRewrite.snapshot (redirected moved n kind) = some rewrite ∧
      (rewrite.edit e.arm fun _ => (n, e.args)) = some edited ∧
      TerminatorRewrite.snapshot (redirected (fun arm => moved arm || e.arm = arm) n kind) =
        some edited := by
  rcases kind_of_edge leaves with ⟨isArm, isJump⟩ | ⟨cond, fTarget, fArgs, isArm, isBranch⟩ |
    ⟨cond, tTarget, tArgs, isArm, isBranch⟩
  · cases isKind.symm.trans isJump
    simp [isArm, redirected, TerminatorRewrite.snapshot, TerminatorRewrite.edit]
  · cases isKind.symm.trans isBranch
    simp [isArm, redirected, TerminatorRewrite.snapshot, TerminatorRewrite.edit]
  · cases isKind.symm.trans isBranch
    simp [isArm, redirected, TerminatorRewrite.snapshot, TerminatorRewrite.edit]

theorem exists_kind_of_edge (leaves : e ∈ F.outgoingEdges bb) :
    ∃ kind, F.kind e.terminator = some kind := by
  rcases kind_of_edge leaves with ⟨-, isKind⟩ | ⟨_, _, _, -, isKind⟩ | ⟨_, _, _, -, isKind⟩ <;>
    exact ⟨_, isKind⟩

/-- The copies after some edges have been moved to `n`. -/
def LogicalEdgeRewriter.Moves (F : FunctionData) (n : BasicBlock) (edges : List LogicalEdge)
    (r : LogicalEdgeRewriter) : Prop :=
  ∀ inst, r.pending.lookup inst =
    if edges.any (·.terminator = inst) then
      (F.kind inst).bind fun kind =>
        TerminatorRewrite.snapshot (redirected (movedBy edges inst) n kind)
    else none

theorem movedBy_none (none : edges.any (·.terminator = inst) = false) (arm : LogicalEdgeArm) :
    movedBy edges inst arm = false := by
  rw [movedBy, List.any_eq_false]
  intro e member
  have differ := List.any_eq_false.mp none e member
  simp_all

theorem movedBy_concat (arm : LogicalEdgeArm) : movedBy (edges ++ [e]) inst arm =
    (movedBy edges inst arm || (e.terminator = inst && e.arm = arm)) := by
  simp [movedBy]

theorem LogicalEdgeRewriter.Moves.retarget (h : r.Moves F n edges)
    (leaves : e ∈ F.outgoingEdges bb) :
    ∃ r', r.retarget F e n e.args = some r' ∧ r'.Moves F n (edges ++ [e]) := by
  obtain ⟨kind, isKind⟩ := exists_kind_of_edge leaves
  obtain ⟨rewrite, edited, isRewrite, isEdited, later⟩ :=
    edit_snapshot (movedBy edges e.terminator) n leaves isKind
  -- a copy or the terminator itself: both have the arms moved so far
  have current : (r.pending.lookup e.terminator).or
      ((F.kind e.terminator).bind TerminatorRewrite.snapshot) = some rewrite := by
    rw [h e.terminator, isKind, Option.bind_some]
    cases touched : edges.any (·.terminator = e.terminator) with
    | true =>
      rw [if_pos rfl, Option.bind_some, isRewrite]
      rfl
    | false =>
      rw [redirected_none (movedBy_none touched)] at isRewrite
      rw [if_neg Bool.false_ne_true, Option.none_or, Option.bind_some, isRewrite]
  refine ⟨⟨(e.terminator, edited) :: r.pending⟩, ?_, fun inst => ?_⟩
  · rw [LogicalEdgeRewriter.retarget, LogicalEdgeRewriter.edit, current, Option.bind_some, isEdited]
    rfl
  · by_cases same : inst = e.terminator
    · subst same
      have moved : movedBy (edges ++ [e]) e.terminator =
          fun arm => movedBy edges e.terminator arm || e.arm = arm := by
        funext arm
        rw [movedBy_concat]
        simp
      rw [List.lookup_cons_self, moved, isKind, Option.bind_some, later]
      simp
    · have other : movedBy (edges ++ [e]) inst = movedBy edges inst := by
        funext arm
        rw [movedBy_concat]
        simp [Ne.symm same]
      rw [List.lookup_cons, beq_eq_false_iff_ne.mpr same, other]
      simp [h inst, Ne.symm same]

/-- All edges are moved. -/
theorem retarget_all (leaves : ∀ e ∈ edges, ∃ bb, e ∈ F.outgoingEdges bb) :
    ∃ r, edges.foldlM (fun r e => LogicalEdgeRewriter.retarget F r e n e.args) .new = some r ∧
      r.Moves F n edges := by
  have fold : ∀ (later done : List LogicalEdge) (r : LogicalEdgeRewriter), r.Moves F n done →
      (∀ e ∈ later, ∃ bb, e ∈ F.outgoingEdges bb) →
        ∃ r', later.foldlM (fun r e => LogicalEdgeRewriter.retarget F r e n e.args) r = some r' ∧
          r'.Moves F n (done ++ later) := by
    intro later
    induction later with
    | nil =>
      intro done r h _
      exact ⟨r, rfl, by rwa [List.append_nil]⟩
    | cons e later ih =>
      intro done r h leaves
      obtain ⟨bb, isEdge⟩ := leaves e List.mem_cons_self
      obtain ⟨r₁, moved, h₁⟩ := h.retarget isEdge
      obtain ⟨r₂, rest, h₂⟩ := ih _ r₁ h₁ fun e member => leaves e (List.mem_cons_of_mem _ member)
      refine ⟨r₂, ?_, ?_⟩
      · rw [List.foldlM_cons, moved]
        exact rest
      · rwa [List.append_assoc] at h₂
  exact fold edges [] .new (fun inst => rfl) leaves

/-- Every terminator has the arms of its edges moved. -/
theorem LogicalEdgeRewriter.Moves.apply (h : r.Moves F n edges)
    (unit : ∀ e ∈ edges, ∀ {data}, F.insts e.terminator = some data → data.ty = .unit)
    (inst : Inst) :
    (r.apply F).1.insts inst = (F.insts inst).map fun data =>
      ⟨data.ty, redirected (movedBy edges inst) n data.kind⟩ := by
  simp only [LogicalEdgeRewriter.apply, h inst]
  cases found : F.insts inst with
  | none =>
    simp [FunctionData.kind, found]
  | some data =>
    obtain ⟨ty, kind⟩ := data
    have isKind : F.kind inst = some kind := by simp [FunctionData.kind, found]
    cases touched : edges.any (·.terminator = inst) with
    | false =>
      simp only [Bool.false_eq_true, if_false, Option.map_some]
      rw [redirected_none (movedBy_none touched)]
    | true =>
      simp only [if_true, isKind, Option.bind_some]
      obtain ⟨e, member, here⟩ := List.any_eq_true.mp touched
      obtain rfl : ty = .unit := unit e member (of_decide_eq_true here ▸ found)
      cases kind <;> rfl

theorem LogicalEdgeRewriter.Moves.changed (h : r.Moves F n edges) (leaves : e ∈ F.outgoingEdges bb)
    (member : e ∈ edges) : (r.apply F).2 = true := by
  obtain ⟨kind, isKind⟩ := exists_kind_of_edge leaves
  obtain ⟨rewrite, -, isRewrite, -⟩ :=
    edit_snapshot (movedBy edges e.terminator) n leaves isKind
  have touched : edges.any (·.terminator = e.terminator) = true :=
    List.any_eq_true.mpr ⟨e, member, by simp⟩
  have found := h e.terminator
  rw [touched, if_pos rfl, isKind, Option.bind_some, isRewrite] at found
  cases none : r.pending with
  | cons first rest => simp [LogicalEdgeRewriter.apply, none]
  | nil => simp [none] at found

end Redirect

end AnonCompiler.Opt
