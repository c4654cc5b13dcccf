import AnonCompiler.Opt.Gvn

/-!
# The order of the walk

A value is replaced by a leader the walk has visited before, in a block above.
Between the execution of the leader and that of the value other instructions are
executed; this module relates them to the order in which the walk visits them.

An instruction on a path from a leader to a value it replaces has not been visited
before the leader (`Precedes.not_between`): the leader's block dominates the
value's, so it dominates all blocks on such a path, and the walk enters the
dominators of a block before the block.
-/

set_option autoImplicit false

namespace AnonCompiler.Opt.Gvn

open Ir Lib DomTree

/-! ## Paths of instructions -/

/-- The second instruction is executed right after the first on some path. -/
def Flows (F : FunctionData) (i j : Inst) : Prop :=
  ∃ bb insts, F.blockInsts bb = some insts ∧
    ((∃ done rest, insts = done ++ i :: j :: rest) ∨
      insts.getLast? = some i ∧ ∃ e ∈ F.outgoingEdges bb, ∃ rest,
        F.blockInsts e.target = some (j :: rest))

/-- `Flows`, without coming to `avoided`. -/
def FlowsAvoiding (F : FunctionData) (avoided i j : Inst) : Prop := Flows F i j ∧ j ≠ avoided

/-- The instruction is executed on some path from the last execution of `first` to
an execution of `last`. -/
def Between (F : FunctionData) (first last inst : Inst) : Prop :=
  Relation.TransGen (FlowsAvoiding F first) first inst ∧
    Relation.TransGen (FlowsAvoiding F first) inst last

/-- The parameters and instructions of a block. -/
def values (F : FunctionData) (bb : BasicBlock) : List Inst :=
  F.blockParams bb ++ (F.blockInsts bb).getD []

variable {F : FunctionData} {x : Inst} {cfg : Cfg}

theorem mem_values {bb : BasicBlock} (h : x ∈ values F bb) :
    x ∈ F.blockParams bb ∨ ∃ insts, F.blockInsts bb = some insts ∧ x ∈ insts := by
  rcases List.mem_append.mp h with isParam | inInsts
  · exact .inl isParam
  · cases found : F.blockInsts bb with
    | none => simp [found] at inInsts
    | some insts => exact .inr ⟨insts, rfl, by simpa [found] using inInsts⟩

/-- The values of the block with the number. -/
def valuesOf (cfg : Cfg) (F : FunctionData) (id : Nat) : List Inst :=
  ((cfg.alloc[id]?).map (values F)).getD []

theorem mem_valuesOf {id : Nat} :
    x ∈ valuesOf cfg F id ↔ ∃ bb, cfg.alloc[id]? = some bb ∧ x ∈ values F bb := by
  cases found : cfg.alloc[id]? with
  | none => simp [valuesOf, found]
  | some bb => simp [valuesOf, found]

/-- The first blocks of the dominator tree, those below a block right after it. -/
def preorder (cfg : Cfg) : Nat → List Nat → List Nat
  | 0, _ => []
  | _ + 1, [] => []
  | fuel + 1, id :: stack => id :: preorder cfg fuel (cfg.children id ++ stack)

/-- All values, in the order of the dominator tree. -/
def visitOrder (cfg : Cfg) (F : FunctionData) : List Inst :=
  (preorder cfg cfg.alloc.length [0]).flatMap (valuesOf cfg F)

/-- The first value comes before the second in the order of the dominator tree. -/
def ComesBefore (cfg : Cfg) (F : FunctionData) (first second : Inst) : Prop :=
  (visitOrder cfg F).idxOf first < (visitOrder cfg F).idxOf second

theorem ComesBefore.mem {first second : Inst} {before after : List Inst}
    (h : ComesBefore cfg F first second) (isOrder : visitOrder cfg F = before ++ second :: after) :
    first ∈ before := by
  by_contra late
  have notBefore : before.length ≤ (visitOrder cfg F).idxOf first := by
    rw [isOrder, List.idxOf_append_of_notMem late]
    exact Nat.le_add_right ..
  have isThere : (visitOrder cfg F).idxOf second ≤ before.length := by
    rw [isOrder]
    by_cases early : second ∈ before
    · rw [List.idxOf_append_of_mem early]
      exact (List.idxOf_lt_length_of_mem early).le
    · rw [List.idxOf_append_of_notMem early, List.idxOf_cons_self]
      exact le_refl _
  exact absurd (isThere.trans notBefore) (Nat.not_le_of_lt h)

/-- The leader lies in block `id` after some instructions of it, and the other
values that come before it do so in blocks that `id` does not dominate. -/
structure Precedes (cfg : Cfg) (F : FunctionData) (id : Nat) (leader : Inst) (older : List Inst) :
    Prop where
  place : ∃ bb pre post, cfg.alloc[id]? = some bb ∧ F.blockInsts bb = some (pre ++ leader :: post) ∧
    (∀ x ∈ pre, x ∈ older) ∧
    ∀ x ∈ older, x ∈ F.blockParams bb ∨ x ∈ pre ∨
      ∃ other, ¬ Dominates cfg.edge 0 id other ∧ x ∈ valuesOf cfg F other

section Paths

variable {F : FunctionData} {cfg : Cfg} {leader value x y : Inst} {id : Nat}

variable {bb bbLast : BasicBlock} {pre post instsLast : List Inst} {last : Nat}

/-- From an instruction before the leader, in its block, no path leads on without
the leader. -/
theorem stays_before (wellFormed : F.WellFormed)
    (block : F.blockInsts bb = some (pre ++ leader :: post))
    (path : Relation.ReflTransGen (FlowsAvoiding F leader) x y) (before : x ∈ pre) : y ∈ pre := by
  induction path with
  | refl => exact before
  | @tail i j _ step ih =>
    obtain ⟨⟨bb', insts, block', next⟩, avoids⟩ := step
    have member : i ∈ insts := by
      rcases next with ⟨done, rest, rfl⟩ | ⟨last, -⟩
      · simp
      · exact List.mem_of_getLast? last
    have same : bb' = bb := wellFormed.block_unique block' block member (by simp [ih])
    subst same
    obtain rfl := Option.some.inj (block'.symm.trans block)
    have nodup : (pre ++ leader :: post).Nodup := wellFormed.nodup_block block
    have apart : ∀ z ∈ pre, z ∉ leader :: post := fun z inPre inPost =>
      (List.nodup_append.mp nodup).2.2 z inPre z inPost rfl
    rcases next with ⟨done, rest, same⟩ | ⟨last, -⟩
    · obtain ⟨p₁, p₂, rfl⟩ := List.append_of_mem ih
      rw [List.append_assoc, List.cons_append] at same nodup
      obtain ⟨-, tailNodup, apart'⟩ := List.nodup_append.mp nodup
      have inP₁ : i ∉ p₁ := fun member => apart' i member i (List.mem_cons_self ..) rfl
      have inTail : i ∉ p₂ ++ leader :: post := (List.nodup_cons.mp tailNodup).1
      obtain ⟨-, -, rest'⟩ := (List.append_cons_inj_of_notMem inP₁ inTail).mp same
      cases p₂ with
      | nil =>
        cases rest'
        exact absurd rfl avoids
      | cons first p₂ =>
        cases rest'
        simp
    · have inPost : i ∈ leader :: post := by
        rw [List.getLast?_append_of_ne_nil _ (by simp)] at last
        exact List.mem_of_getLast? last
      exact absurd inPost (apart i ih)

theorem Flows.laidOut (h : Flows F x y) : ∃ bb insts, F.blockInsts bb = some insts ∧ x ∈ insts := by
  obtain ⟨bb, insts, block, ⟨done, rest, rfl⟩ | ⟨last, -⟩⟩ := h
  · exact ⟨bb, _, block, by simp⟩
  · exact ⟨bb, insts, block, List.mem_of_getLast? last⟩

/-- A path that avoids the leader, from outside its block, is a path of blocks that
avoids its block. -/
theorem reachAvoiding_of_path (wellFormed : F.WellFormed) (describes : cfg.Describes F)
    (leads : cfg.alloc[id]? = some bb) (block : F.blockInsts bb = some (pre ++ leader :: post))
    (notBefore : value ∉ pre) (isLast : cfg.alloc[last]? = some bbLast)
    (blockLast : F.blockInsts bbLast = some instsLast) (ends : value ∈ instsLast)
    (path : Relation.ReflTransGen (FlowsAvoiding F leader) x value) :
    ∀ {n bbX insts}, cfg.alloc[n]? = some bbX → F.blockInsts bbX = some insts → x ∈ insts → n ≠ id →
      ReachAvoiding cfg.edge id n last := by
  have number : ∀ {n bbX}, cfg.alloc[n]? = some bbX → cfg.alloc.idxOf bbX = n := by
    intro n bbX isN
    obtain ⟨inside, rfl⟩ := List.getElem?_eq_some_iff.mp isN
    exact describes.nodup.idxOf_getElem n inside
  induction path using Relation.ReflTransGen.head_induction_on with
  | refl =>
    intro n bbX insts isN blockX member differ
    obtain rfl := wellFormed.block_unique blockX blockLast member ends
    rw [← number isN, number isLast] at differ ⊢
    exact ⟨differ, .refl⟩
  | @head x j step rest ih =>
    intro n bbX insts isN blockX member differ
    obtain ⟨flows, avoids⟩ := step
    obtain ⟨bb', insts', block', next⟩ := flows
    have member' : x ∈ insts' := by
      rcases next with ⟨done, rest, rfl⟩ | ⟨isEnd, -⟩
      · simp
      · exact List.mem_of_getLast? isEnd
    obtain rfl := wellFormed.block_unique block' blockX member' member
    rcases next with ⟨done, later, rfl⟩ | ⟨-, e, leaves, later, target⟩
    · exact ih isN block' (by simp) differ
    · have inAlloc : bb' ∈ cfg.alloc := List.mem_of_getElem? isN
      obtain ⟨targetKnown, isEdge⟩ := describes.edges inAlloc e leaves
      rw [number isN] at isEdge
      have isTarget : cfg.alloc[cfg.alloc.idxOf e.target]? = some e.target :=
        List.getElem?_idxOf targetKnown
      by_cases isLeader : cfg.alloc.idxOf e.target = id
      · -- the path runs into the leader's block from the top
        rw [isLeader, leads] at isTarget
        obtain rfl := Option.some.inj isTarget
        rw [target] at block
        cases pre with
        | nil =>
          cases Option.some.inj block
          exact absurd rfl avoids
        | cons first pre =>
          cases Option.some.inj block
          exact absurd (stays_before wellFormed target rest (List.mem_cons_self ..)) notBefore
      · have onward := ih isTarget target (List.mem_cons_self ..) isLeader
        exact ⟨differ, .head ⟨isEdge, isLeader⟩ onward.2⟩

/-- What the walk has visited before the leader is not executed between the leader
and a value in a block below. -/
theorem Precedes.not_between (wellFormed : F.WellFormed) (describes : cfg.Describes F)
    {older : List Inst} (precedes : Precedes cfg F id leader older)
    (isLast : cfg.alloc[last]? = some bbLast) (blockLast : F.blockInsts bbLast = some instsLast)
    (ends : value ∈ instsLast) (above : Above cfg.parent id last) (fresh : value ∉ older)
    (isOlder : x ∈ older) : ¬ Between F leader value x := by
  rintro ⟨-, path⟩
  obtain ⟨bb, pre, post, leads, block, inside, cases⟩ := precedes.place
  obtain ⟨j, step, -⟩ := Relation.TransGen.head'_iff.mp path
  obtain ⟨bbX, insts, blockX, member⟩ := step.1.laidOut
  have notParam := wellFormed.not_param (FunctionData.mem_layoutInsts blockX member)
  rcases cases x isOlder with isParam | before | ⟨other, notDominated, inOther⟩
  · exact notParam bb isParam
  · exact fresh (inside _ (stays_before wellFormed block path.to_reflTransGen before))
  · obtain ⟨bb', isOther, isValue⟩ := mem_valuesOf.mp inOther
    have differ : other ≠ id := by
      rintro rfl
      exact notDominated (.refl _)
    obtain ⟨insts', block', member'⟩ := (mem_values isValue).resolve_left (notParam bb')
    have onward := reachAvoiding_of_path wellFormed describes leads block
      (fun before => fresh (inside _ before)) isLast blockLast ends path.to_reflTransGen
        isOther block'
      member' differ
    have reached : ReachAvoiding cfg.edge id 0 other := not_not.mp notDominated
    exact above.dominates describes.numbered.tree (reached.trans onward)

end Paths

/-! ## What the rewriting keeps -/

/-- What of an instruction does not change when values are replaced. -/
inductive Shape where
  | load
  | store
  | memZero
  | call (callee : Function)
  | blockArgRef
  | globalAlloc
  | other
deriving DecidableEq, Repr

def shape : InstKind → Shape
  | .load _ => .load
  | .store .. => .store
  | .memZero .. => .memZero
  | .call callee _ => .call callee
  | .blockArgRef _ => .blockArgRef
  | .globalAlloc _ => .globalAlloc
  | _ => .other

theorem shape_replaceKind (P : Program) (F : FunctionData) (rep repWith : Inst) (kind : InstKind) :
    shape (replaceKind P F rep repWith kind) = shape kind := by
  cases kind with
  | branch cond t tArgs f fArgs =>
    simp only [replaceKind]
    split
    · split <;> rfl
    · rfl
  | memZero dest byteLen => cases byteLen <;> rfl
  | ret value => cases value <;> rfl
  | _ => rfl

/-- The blocks are those of `F`, and the instructions have the shapes they have
in `F`. -/
structure Kept (F data : FunctionData) : Prop where
  layout : data.layout = F.layout
  params : data.blockParams = F.blockParams
  shapes : ∀ inst, (data.kind inst).map shape = (F.kind inst).map shape

namespace Kept

variable {F data : FunctionData}

theorem refl (F : FunctionData) : Kept F F := ⟨rfl, rfl, fun _ => rfl⟩

theorem replace (h : Kept F data) (P : Program) (rep repWith : Inst) :
    Kept F (visitAndReplace P data rep repWith) := by
  refine ⟨h.layout, h.params, fun inst => (Eq.trans ?_ (h.shapes inst))⟩
  simp only [FunctionData.kind, visitAndReplace, Option.map_map]
  refine congrArg (fun f => Option.map f (data.insts inst)) (funext fun d => ?_)
  simp only [Function.comp_apply]
  split
  · exact shape_replaceKind P data rep repWith d.kind
  · rfl

theorem blockInsts (h : Kept F data) (bb : BasicBlock) : data.blockInsts bb = F.blockInsts bb := by
  rw [FunctionData.blockInsts, FunctionData.blockInsts, h.layout]

theorem shape_eq (h : Kept F data) {inst : Inst} {kind : InstKind}
    (isKind : data.kind inst = some kind) : (F.kind inst).map shape = some (shape kind) := by
  rw [← h.shapes, isKind, Option.map_some]

/-- The shapes of all values agree, those of globals too. -/
theorem shape_kindIn (h : Kept F data) (P : Program) (inst : Inst) :
    (kindIn P data inst).map shape = (kindIn P F inst).map shape := by
  simp only [kindIn, Program.instData]
  split
  · rfl
  · exact h.shapes inst

theorem mayRead (h : Kept F data) (P : Program) (A : EffectAnalysis) (func : Function) (addr : Inst)
    (callee : Function) :
    Gvn.mayRead P A func data addr callee = Gvn.mayRead P A func F addr callee := by
  have isGlobal : ∀ {G : FunctionData}, (∃ init, kindIn P G addr = some (.globalAlloc init)) ↔
      (kindIn P G addr).map shape = some .globalAlloc := by
    intro G
    constructor
    · rintro ⟨init, isKind⟩
      rw [isKind]
      rfl
    · intro isShape
      obtain ⟨kind, isKind, isShape⟩ := Option.map_eq_some_iff.mp isShape
      cases kind <;> cases isShape
      exact ⟨_, isKind⟩
  have both : (∃ init, kindIn P data addr = some (.globalAlloc init)) ↔
      ∃ init, kindIn P F addr = some (.globalAlloc init) := by
    rw [isGlobal, isGlobal, h.shape_kindIn]
  have base : A.baseOf P data func addr = A.baseOf P F func addr := by
    unfold EffectAnalysis.baseOf
    split
    · next init isKind =>
        obtain ⟨init', isKind'⟩ := both.mp ⟨init, isKind⟩
        rw [isKind']
    · next notGlobal =>
        split
        · next init isKind =>
            obtain ⟨init', isKind'⟩ := both.mpr ⟨init, isKind⟩
            exact absurd isKind' (notGlobal init')
        · rfl
  simp only [Gvn.mayRead, EffectAnalysis.targetsOf, base]

end Kept

end AnonCompiler.Opt.Gvn
