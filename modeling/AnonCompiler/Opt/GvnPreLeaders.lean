import AnonCompiler.Opt.DominanceQueries
import AnonCompiler.Opt.GvnPreNumbers

/-!
# The leaders of the edges

`requested_leaders` walks the dominator tree with a scoped table.  When it leaves a
block, the table has for every expression the latest operation that computes it on the
way from the entry down to the block; what the joins have asked of the block is
answered from it.  So an answer is the latest operation on that way which is the same
expression (`Leads`), and there is none when no operation is.
-/

set_option autoImplicit false

namespace AnonCompiler.Opt.GvnPre

open Ir

/-! ## The latest of a list -/

section Latest

variable {α : Type} {property property' : α → Prop} {xs : List α} {x y : α}

def Latest (property : α → Prop) (xs : List α) (x : α) : Prop :=
  ∃ before after, xs = before ++ x :: after ∧ property x ∧ ∀ y ∈ after, ¬ property y

theorem Latest.mem (latest : Latest property xs x) : x ∈ xs := by
  obtain ⟨before, after, rfl, -⟩ := latest
  simp

theorem not_latest_nil : ¬ Latest property [] x := fun latest => by cases latest.mem

theorem latest_concat :
    Latest property (xs ++ [y]) x ↔ (property y ∧ x = y) ∨
      (¬ property y ∧ Latest property xs x) := by
  constructor
  · rintro ⟨before, after, split, isSo, later⟩
    rcases List.eq_nil_or_concat after with rfl | ⟨after, last, rfl⟩
    · obtain ⟨rfl, same⟩ := List.append_inj' split rfl
      cases same
      exact .inl ⟨isSo, rfl⟩
    · rw [List.concat_eq_append, ← List.cons_append, ← List.append_assoc] at split
      obtain ⟨rfl, same⟩ := List.append_inj' split rfl
      cases same
      refine .inr ⟨later y (by simp), before, after, rfl, isSo, ?_⟩
      exact fun z member => later z (by simp [member])
  · rintro (⟨isSo, rfl⟩ | ⟨isNot, before, after, rfl, isSo, later⟩)
    · exact ⟨xs, [], rfl, isSo, by simp⟩
    · refine ⟨before, after ++ [y], by simp, isSo, fun z member => ?_⟩
      rcases List.mem_append.mp member with early | late
      · exact later z early
      · cases List.mem_singleton.mp late
        exact isNot

theorem Latest.unique (latest : Latest property xs x) (latest' : Latest property xs y) : x = y := by
  obtain ⟨before, after, rfl, isSo, later⟩ := latest
  obtain ⟨before', after', split, isSo', later'⟩ := latest'
  rcases List.append_eq_append_iff.mp split with ⟨between, rfl, rest⟩ | ⟨between, rfl, rest⟩
  · cases between with
    | nil => exact (List.cons.inj rest).1
    | cons z between =>
      cases rest
      exact absurd isSo' (later y (by simp))
  · cases between with
    | nil => exact (List.cons.inj rest).1.symm
    | cons z between =>
      cases rest
      exact absurd isSo (later' x (by simp))

theorem latest_congr (same : ∀ y ∈ xs, property y ↔ property' y) :
    Latest property xs x ↔ Latest property' xs x := by
  unfold Latest
  refine exists_congr fun before => exists_congr fun after => and_congr_right ?_
  rintro rfl
  refine and_congr (same x (by simp)) (forall₂_congr fun y member => ?_)
  rw [same y (by simp [member])]

end Latest

/-! ## The way down the tree -/

/-- The blocks from one up to the entry of the tree. -/
inductive TreePath (T : DominanceTree) : BasicBlock → List BasicBlock → Prop
  | root : TreePath T T.entry [T.entry]
  | child {bb child : BasicBlock} {path : List BasicBlock} (above : TreePath T bb path)
      (isChild : child ∈ T.children bb) : TreePath T child (child :: path)

/-- The instructions from the entry down to the end of the first block. -/
def pathInsts (F : FunctionData) (path : List BasicBlock) : List Inst :=
  path.reverse.flatMap fun bb => (F.blockInsts bb).getD []

theorem pathInsts_cons (F : FunctionData) (bb : BasicBlock) (path : List BasicBlock) :
    pathInsts F (bb :: path) = pathInsts F path ++ (F.blockInsts bb).getD [] := by
  simp [pathInsts]

/-- The instruction computes the same expression. -/
def Computes (arena : Arena) (op : BinaryOp) (lhs rhs : Inst) (inst : Inst) : Prop :=
  ∃ ty op' lhs' rhs', arena inst = some ⟨ty, .binary op' lhs' rhs'⟩ ∧
    SameExpr arena op lhs rhs op' lhs' rhs'

/-- The latest instruction above the end of the block, in the dominator tree, that
computes the same expression. -/
def Leads (arena : Arena) (F : FunctionData) (T : DominanceTree) (bb : BasicBlock) (op : BinaryOp)
    (lhs rhs : Inst) (leader : Inst) : Prop :=
  ∃ path, TreePath T bb path ∧ Latest (Computes arena op lhs rhs) (pathInsts F path) leader

/-- No block has two parents, and the entry has none. -/
structure SingleParents (T : DominanceTree) : Prop where
  root : ∀ bb, T.entry ∉ T.children bb
  parent : ∀ {bb bb' child}, child ∈ T.children bb → child ∈ T.children bb' → bb = bb'

theorem TreePath.unique {T : DominanceTree} (single : SingleParents T) {bb : BasicBlock}
    {path path' : List BasicBlock} (isPath : TreePath T bb path) (isPath' : TreePath T bb path') :
    path = path' := by
  induction isPath generalizing path' with
  | root =>
    generalize same : T.entry = bb at isPath'
    cases isPath' with
    | root => rfl
    | child _ isChild => exact absurd (same ▸ isChild) (single.root _)
  | @child bb child path above isChild ih =>
    cases isPath' with
    | root => exact absurd isChild (single.root _)
    | child above' isChild' =>
      obtain rfl := single.parent isChild isChild'
      rw [ih above']

/-- The tree of a graph is one. -/
theorem singleParents_of_ofCfg {F : FunctionData} {G : CFG} {T : DominanceTree} {fuel : Nat}
    (built : G.Built F) (isTree : DominanceTree.ofCfg G fuel = some T) :
    SingleParents T ∧ T.entry = G.entry := by
  obtain ⟨up, listing⟩ := DominanceTree.listing_of_order built fun bb => List.Perm.refl _
  obtain ⟨idoms, w, -, -, rfl⟩ := DominanceTree.ofCfgBy_spec listing built isTree
  refine ⟨⟨fun bb isChild => ?_, fun isChild isChild' => ?_⟩, rfl⟩
  · exact listing.root_notMem (DominanceTree.mem_childrenOf.mp isChild).1
  · have parent := (DominanceTree.mem_childrenOf.mp isChild).2
    have parent' := (DominanceTree.mem_childrenOf.mp isChild').2
    exact Option.some.inj (parent.symm.trans parent')

/-! ## Tables of leaders -/

namespace ValueNumbers

variable {arena : Arena} {N N' : ValueNumbers} {e : Expr} {inst leader : Inst} {insts : List Inst}

/-- The instruction has this expression. -/
def Makes (arena : Arena) (N : ValueNumbers) (e : Expr) (inst : Inst) : Prop :=
  ∃ ty op lhs rhs, arena inst = some ⟨ty, .binary op lhs rhs⟩ ∧ N.IsExpr arena op lhs rhs e

/-- The instructions have their expressions. -/
def Scanned (arena : Arena) (N : ValueNumbers) (insts : List Inst) : Prop :=
  ∀ inst ∈ insts, ∀ ty op lhs rhs, arena inst = some ⟨ty, .binary op lhs rhs⟩ →
    Candidate arena op lhs rhs → ∃ e, N.IsExpr arena op lhs rhs e

theorem Scanned.mono (scanned : N.Scanned arena insts) (extends' : N.Extends N') :
    N'.Scanned arena insts := by
  intro inst member ty op lhs rhs isData candidate
  obtain ⟨e, isExpr⟩ := scanned inst member ty op lhs rhs isData candidate
  exact ⟨e, isExpr.mono extends'⟩

theorem Makes.unique {e' : Expr} (makes : N.Makes arena e inst) (makes' : N.Makes arena e' inst) :
    e = e' := by
  obtain ⟨ty, op, lhs, rhs, isData, isExpr⟩ := makes
  obtain ⟨ty', op', lhs', rhs', isData', isExpr'⟩ := makes'
  cases isData.symm.trans isData'
  exact isExpr.unique isExpr'

section

variable (scanned : N.Scanned arena insts) (extends' : N.Extends N')
include scanned extends'

theorem Scanned.makes_iff (member : inst ∈ insts) :
    N.Makes arena e inst ↔ N'.Makes arena e inst := by
  constructor
  · rintro ⟨ty, op, lhs, rhs, isData, isExpr⟩
    exact ⟨ty, op, lhs, rhs, isData, isExpr.mono extends'⟩
  · rintro ⟨ty, op, lhs, rhs, isData, isExpr⟩
    obtain ⟨e', isExpr'⟩ := scanned inst member ty op lhs rhs isData isExpr.1
    rw [isExpr.unique (isExpr'.mono extends')]
    exact ⟨ty, op, lhs, rhs, isData, isExpr'⟩

theorem Scanned.latest_iff :
    Latest (N.Makes arena e) insts leader ↔ Latest (N'.Makes arena e) insts leader :=
  latest_congr fun _ member => scanned.makes_iff extends' member

/-- An instruction makes an expression of an operation when it computes the same. -/
theorem Scanned.makes_iff_computes (ok : N'.Ok arena) {op : BinaryOp} {lhs rhs : Inst}
    (isExpr : N'.IsExpr arena op lhs rhs e) (member : inst ∈ insts) :
    N.Makes arena e inst ↔ Computes arena op lhs rhs inst := by
  constructor
  · rintro ⟨ty, op', lhs', rhs', isData, isExpr'⟩
    exact ⟨ty, op', lhs', rhs', isData, (ok.expr_eq_iff isExpr (isExpr'.mono extends')).mp rfl⟩
  · rintro ⟨ty, op', lhs', rhs', isData, same⟩
    obtain ⟨e', isExpr'⟩ := scanned inst member ty op' lhs' rhs' isData same.2.1
    rw [(ok.expr_eq_iff isExpr (isExpr'.mono extends')).mpr same]
    exact ⟨ty, op', lhs', rhs', isData, isExpr'⟩

end

/-- The table has the latest instruction for every expression. -/
structure Leading (arena : Arena) (N : ValueNumbers) (insts : List Inst)
    (table : Expr → Option Inst) : Prop where
  scanned : N.Scanned arena insts
  leader : ∀ e leader, table e = some leader ↔ Latest (N.Makes arena e) insts leader

variable {table : Expr → Option Inst}

theorem Leading.nil : N.Leading arena [] fun _ => none where
  scanned := fun _ member => by cases member
  leader := fun e leader => iff_of_false (by simp) not_latest_nil

theorem Leading.mono (leading : N.Leading arena insts table) (extends' : N.Extends N') :
    N'.Leading arena insts table where
  scanned := leading.scanned.mono extends'
  leader := fun e leader => (leading.leader e leader).trans (leading.scanned.latest_iff extends')

/-- An instruction without an expression. -/
theorem Leading.skip (leading : N.Leading arena insts table)
    (none : ∀ ty op lhs rhs, arena inst = some ⟨ty, .binary op lhs rhs⟩ →
      ¬ Candidate arena op lhs rhs) : N.Leading arena (insts ++ [inst]) table where
  scanned := by
    intro other member ty op lhs rhs isData candidate
    rcases List.mem_append.mp member with early | late
    · exact leading.scanned other early ty op lhs rhs isData candidate
    · cases List.mem_singleton.mp late
      exact absurd candidate (none ty op lhs rhs isData)
  leader := by
    intro e leader
    have makesNot : ¬ N.Makes arena e inst := by
      rintro ⟨ty, op, lhs, rhs, isData, isExpr⟩
      exact none ty op lhs rhs isData isExpr.1
    rw [latest_concat, leading.leader e leader]
    simp [makesNot]

/-- An instruction with an expression is the latest one for it. -/
theorem Leading.insert (leading : N.Leading arena insts table) (makes : N.Makes arena e inst) :
    N.Leading arena (insts ++ [inst]) (Function.update table e (some inst)) where
  scanned := by
    intro other member ty op lhs rhs isData candidate
    rcases List.mem_append.mp member with early | late
    · exact leading.scanned other early ty op lhs rhs isData candidate
    · cases List.mem_singleton.mp late
      obtain ⟨ty', op', lhs', rhs', isData', isExpr⟩ := makes
      cases isData.symm.trans isData'
      exact ⟨e, isExpr⟩
  leader := by
    intro e' leader
    rw [latest_concat]
    by_cases same : e' = e
    · subst same
      simp [makes, eq_comm]
    · have makesNot : ¬ N.Makes arena e' inst := fun makes' => same (makes'.unique makes)
      rw [Function.update_of_ne same, leading.leader e' leader]
      simp [makesNot]

end ValueNumbers

/-! ## One block -/

/-- The table before the insertions of a scope. -/
def undo (scope : List (Expr × Option Inst)) (table : Expr → Option Inst) : Expr → Option Inst :=
  scope.foldl (fun leaders entry => Function.update leaders entry.1 entry.2) table

theorem undo_insert (scope : List (Expr × Option Inst)) (table : Expr → Option Inst) (e : Expr)
    (leader : Option Inst) :
    undo ((e, table e) :: scope) (Function.update table e leader) = undo scope table := by
  rw [undo, List.foldl_cons, Function.update_idem, Function.update_eq_self]
  rfl

section Walk

variable {arena : Arena} {F : FunctionData} {G : CFG} {T : DominanceTree} {fuel : Nat}
  {N N' : ValueNumbers} {L L' : ScopedLeaders}

/-- What a block does to the table. -/
structure Led (arena : Arena) (N : ValueNumbers) (done : List Inst)
    (scope : List (Expr × Option Inst)) (scopes : List (List (Expr × Option Inst)))
    (before : Expr → Option Inst) (L' : ScopedLeaders) (N' : ValueNumbers) : Prop where
  ok : N'.Ok arena
  grown : N.Extends N'
  leading : N'.Leading arena done L'.leaders
  scopes : ∃ scope', L'.scopes = scope' :: scopes ∧ undo scope' L'.leaders = undo scope before

variable {insts : List Inst} {scopes : List (List (Expr × Option Inst))} {path : List BasicBlock}
  {table : Expr → Option Inst} {bb : BasicBlock}

theorem leadInsts_spec {done : List Inst} {scope : List (Expr × Option Inst)} (ok : N.Ok arena)
    (leading : N.Leading arena done L.leaders) (isScopes : L.scopes = scope :: scopes)
    (ran : leadInsts arena fuel insts (L, N) = some (L', N')) :
    Led arena N (done ++ insts) scope scopes L.leaders L' N' := by
  induction insts generalizing done scope N L with
  | nil =>
    cases ran
    rw [List.append_nil]
    exact ⟨ok, .refl _, leading, scope, isScopes, rfl⟩
  | cons inst insts ih =>
    rw [List.append_cons]
    rw [leadInsts] at ran
    split at ran
    · cases ran
    · next ty op lhs rhs isData =>
        split at ran
        · cases ran
        · next M found =>
            have spec := ValueNumbers.expr_spec ok found
            have skipped : M.Leading arena (done ++ [inst]) L.leaders := by
              refine (leading.mono spec.grown).skip fun ty' op' lhs' rhs' isData' => ?_
              cases isData.symm.trans isData'
              exact spec.none rfl
            have rest := ih spec.ok skipped isScopes ran
            exact ⟨rest.ok, spec.grown.trans rest.grown, rest.leading, rest.scopes⟩
        · next e M found =>
            have spec := ValueNumbers.expr_spec ok found
            obtain ⟨L₁, inserted, ran⟩ := Option.bind_eq_some_iff.mp ran
            rw [ScopedLeaders.insert, isScopes] at inserted
            obtain rfl := Option.some.inj inserted
            have inserted : M.Leading arena (done ++ [inst])
                (Function.update L.leaders e (some inst)) :=
              (leading.mono spec.grown).insert ⟨ty, op, lhs, rhs, isData, spec.some rfl⟩
            have rest := ih spec.ok inserted rfl ran
            obtain ⟨scope', isScopes', undone⟩ := rest.scopes
            refine ⟨rest.ok, spec.grown.trans rest.grown, rest.leading, scope', isScopes', ?_⟩
            rw [undone]
            exact undo_insert scope L.leaders e (some inst)
    · next data notBinary isData =>
        have skipped : N.Leading arena (done ++ [inst]) L.leaders := by
          refine leading.skip fun ty op lhs rhs isBinary => ?_
          exact absurd (isData.symm.trans isBinary)
            (by rintro ⟨⟩; exact notBinary ty op lhs rhs rfl)
        exact ih ok skipped isScopes ran

/-! ## The walk -/

/-- The open blocks of the walk, the innermost first, with the scopes they have. -/
inductive Stands (arena : Arena) (F : FunctionData) (T : DominanceTree) (N : ValueNumbers) :
    List BasicBlock → List Visit → List (List (Expr × Option Inst)) → (Expr → Option Inst) → Prop
  | outside {stack : List Visit} (isStack : stack = [.enter T.entry] ∨ stack = []) :
      Stands arena F T N [] stack [] fun _ => none
  | inside {bb : BasicBlock} {path pending : List BasicBlock} {stack : List Visit}
      {scope : List (Expr × Option Inst)} {scopes : List (List (Expr × Option Inst))}
      {table : Expr → Option Inst}
      (above : Stands arena F T N path stack scopes (undo scope table))
      (isPath : TreePath T bb (bb :: path)) (children : ∀ child ∈ pending, child ∈ T.children bb)
      (leading : N.Leading arena (pathInsts F (bb :: path)) table) :
      Stands arena F T N (bb :: path) (pending.map .enter ++ .exit bb :: stack) (scope :: scopes)
        table

theorem Stands.mono {stack : List Visit} (stands : Stands arena F T N path stack scopes table)
    (grown : N.Extends N') : Stands arena F T N' path stack scopes table := by
  induction stands with
  | outside isStack => exact .outside isStack
  | inside above isPath children leading ih =>
    exact .inside ih isPath children (leading.mono grown)

theorem Stands.leading {stack : List Visit} (stands : Stands arena F T N path stack scopes table) :
    N.Leading arena (pathInsts F path) table := by
  cases stands with
  | outside => exact .nil
  | inside _ _ _ leading => exact leading

section

variable {path : List BasicBlock} {bb : BasicBlock} {rest : List Visit}
  {scopes : List (List (Expr × Option Inst))} {table : Expr → Option Inst}

/-- A block the walk is about to enter lies below the open ones. -/
theorem Stands.enter (stands : Stands arena F T N path (.enter bb :: rest) scopes table) :
    TreePath T bb (bb :: path) ∧ Stands arena F T N path rest scopes table := by
  generalize isStack : Visit.enter bb :: rest = stack at stands
  cases stands with
  | outside shape =>
    rcases shape with rfl | rfl
    · cases isStack
      exact ⟨.root, .outside (.inr rfl)⟩
    · cases isStack
  | @inside _ _ pending _ _ _ _ above isPath children leading =>
    cases pending with
    | nil => cases isStack
    | cons child pending =>
      cases isStack
      refine ⟨.child isPath (children _ List.mem_cons_self), ?_⟩
      exact .inside above isPath
        (fun child member => children child (List.mem_cons_of_mem _ member)) leading

theorem Stands.exit (stands : Stands arena F T N path (.exit bb :: rest) scopes table) :
    ∃ above scope scopes', path = bb :: above ∧ scopes = scope :: scopes' ∧
      Stands arena F T N above rest scopes' (undo scope table) := by
  generalize isStack : Visit.exit bb :: rest = stack at stands
  cases stands with
  | outside shape => rcases shape with rfl | rfl <;> cases isStack
  | @inside _ above pending _ scope scopes' _ isAbove isPath children leading =>
    cases pending with
    | nil =>
      cases isStack
      exact ⟨above, scope, scopes', rfl, rfl, isAbove⟩
    | cons child pending => cases isStack

end

/-- The blocks that are still to be entered hide those below them; the others have
been answered. -/
structure Answered (arena : Arena) (F : FunctionData) (T : DominanceTree) (requested : Requests)
    (N : ValueNumbers) (stack : List Visit) (output : List ((BasicBlock × Expr) × Inst)) :
    Prop where
  sound : ∀ {bb e leader}, ((bb, e), leader) ∈ output → e ∈ requested bb ∧ ∃ path,
    TreePath T bb path ∧ N.Scanned arena (pathInsts F path) ∧
      Latest (N.Makes arena e) (pathInsts F path) leader
  complete : ∀ {bb path}, TreePath T bb path → (∃ above ∈ path, .enter above ∈ stack) ∨
    (N.Scanned arena (pathInsts F path) ∧ ∀ e ∈ requested bb, ∀ leader,
      Latest (N.Makes arena e) (pathInsts F path) leader → ((bb, e), leader) ∈ output)

variable {requested : Requests} {stack : List Visit} {output : List ((BasicBlock × Expr) × Inst)}

theorem Answered.mono (answered : Answered arena F T requested N stack output)
    (grown : N.Extends N') : Answered arena F T requested N' stack output where
  sound := by
    intro bb e leader member
    obtain ⟨isAsked, path, isPath, scanned, latest⟩ := answered.sound member
    exact ⟨isAsked, path, isPath, scanned.mono grown, (scanned.latest_iff grown).mp latest⟩
  complete := by
    intro bb path isPath
    rcases answered.complete isPath with waits | ⟨scanned, all⟩
    · exact .inl waits
    · refine .inr ⟨scanned.mono grown, fun e isAsked leader latest => ?_⟩
      exact all e isAsked leader ((scanned.latest_iff grown).mpr latest)

theorem mem_answers {asked : List Expr} {bb' : BasicBlock} {e : Expr} {leader : Inst} :
    ((bb', e), leader) ∈ answers asked L bb ↔
      bb' = bb ∧ e ∈ asked ∧ L.leaders e = some leader := by
  simp only [answers, List.mem_filterMap, Option.map_eq_some_iff, Prod.mk.injEq]
  constructor
  · rintro ⟨e', isAsked, leader', found, ⟨rfl, rfl⟩, rfl⟩
    exact ⟨rfl, isAsked, found⟩
  · rintro ⟨rfl, isAsked, found⟩
    exact ⟨e, isAsked, leader, found, ⟨rfl, rfl⟩, rfl⟩

/-- The blocks below a block come after one of its children. -/
theorem TreePath.eq_or_child {top : BasicBlock} {above : List BasicBlock} (single : SingleParents T)
    (isPath : TreePath T bb path) (isTop : TreePath T top (top :: above)) (member : top ∈ path) :
    (bb = top ∧ path = top :: above) ∨
      ∃ child ∈ path, child ∈ T.children top := by
  induction isPath with
  | root =>
    obtain rfl := List.mem_singleton.mp member
    exact .inl ⟨rfl, TreePath.unique single .root isTop⟩
  | @child parent bb path isAbove isChild ih =>
    rcases List.mem_cons.mp member with rfl | later
    · exact .inl ⟨rfl, TreePath.unique single (.child isAbove isChild) isTop⟩
    · rcases ih later with ⟨rfl, -⟩ | ⟨child, inside, below⟩
      · exact .inr ⟨bb, List.mem_cons_self, isChild⟩
      · exact .inr ⟨child, List.mem_cons_of_mem _ inside, below⟩

structure WalkOk (arena : Arena) (F : FunctionData) (T : DominanceTree) (requested : Requests)
    (N : ValueNumbers) (w : LeaderWalk) : Prop where
  ok : w.numbers.Ok arena
  grown : N.Extends w.numbers
  stands : ∃ path, Stands arena F T w.numbers path w.stack w.leaders.scopes w.leaders.leaders
  answered : Answered arena F T requested w.numbers w.stack w.output

variable {w w' : LeaderWalk}

theorem WalkOk.start (ok : N.Ok arena) :
    WalkOk arena F T requested N ⟨.init, N, [], [.enter T.entry]⟩ where
  ok := ok
  grown := .refl N
  stands := ⟨[], .outside (.inl rfl)⟩
  answered := by
    refine ⟨fun member => (by cases member), fun {bb path} isPath => .inl ⟨T.entry, ?_, by simp⟩⟩
    induction isPath with
    | root => simp
    | child _ _ ih => exact List.mem_cons_of_mem _ ih

theorem WalkOk.step (single : SingleParents T) (walkOk : WalkOk arena F T requested N w)
    (stepped : LeaderWalk.step arena F fuel T requested w = some (.inl w')) :
    WalkOk arena F T requested N w' := by
  obtain ⟨path, stands⟩ := walkOk.stands
  unfold LeaderWalk.step at stepped
  split at stepped
  · cases stepped
  · next bb rest isStack =>
      obtain ⟨⟨L', N'⟩, led, isNext⟩ := Option.map_eq_some_iff.mp stepped
      obtain rfl := Sum.inl.inj isNext
      rw [isStack] at stands
      obtain ⟨isPath, stands⟩ := stands.enter
      have led := leadInsts_spec (L := w.leaders.enterScope) walkOk.ok stands.leading rfl led
      rw [← pathInsts_cons] at led
      obtain ⟨scope, isScopes, undone⟩ := led.scopes
      refine ⟨led.ok, walkOk.grown.trans led.grown, ⟨bb :: path, ?_⟩, ?_⟩
      · dsimp only
        rw [isScopes]
        refine .inside ?_ isPath (fun child member => member) led.leading
        rw [undone]
        exact stands.mono led.grown
      · have before := walkOk.answered.mono led.grown
        rw [isStack] at before
        refine ⟨fun {bb' e leader} member => ?_, fun {bb' path'} isPath' => ?_⟩
        · rcases List.mem_append.mp member with new | old
          · obtain ⟨rfl, isAsked, found⟩ := mem_answers.mp new
            exact ⟨isAsked, bb' :: path, isPath, led.leading.scanned,
              (led.leading.leader e leader).mp found⟩
          · exact before.sound old
        · rcases before.complete isPath' with ⟨above, inPath, waits⟩ | ⟨scanned, all⟩
          · rcases List.mem_cons.mp waits with same | later
            · cases same
              have isBelow := isPath'.eq_or_child single isPath inPath
              rcases isBelow with ⟨rfl, rfl⟩ | ⟨child, inside, below⟩
              · refine .inr ⟨led.leading.scanned, fun e isAsked leader latest => ?_⟩
                exact List.mem_append_left _ (mem_answers.mpr
                  ⟨rfl, isAsked, (led.leading.leader e leader).mpr latest⟩)
              · exact .inl ⟨child, inside, List.mem_append_left _ (List.mem_map_of_mem below)⟩
            · exact .inl ⟨above, inPath, List.mem_append_right _ (List.mem_cons_of_mem _ later)⟩
          · refine .inr ⟨scanned, fun e isAsked leader latest => ?_⟩
            exact List.mem_append_right _ (all e isAsked leader latest)
  · next bb rest isStack =>
      obtain ⟨L', exited, isNext⟩ := Option.map_eq_some_iff.mp stepped
      obtain rfl := Sum.inl.inj isNext
      rw [isStack] at stands
      obtain ⟨above, scope, scopes, rfl, isScopes, stands⟩ := stands.exit
      rw [ScopedLeaders.exitScope, isScopes] at exited
      obtain rfl := Option.some.inj exited
      refine ⟨walkOk.ok, walkOk.grown, ⟨above, stands⟩, walkOk.answered.sound, ?_⟩
      intro bb' path' isPath'
      rcases walkOk.answered.complete isPath' with ⟨top, inPath, waits⟩ | answered
      · rw [isStack] at waits
        rcases List.mem_cons.mp waits with same | later
        · cases same
        · exact .inl ⟨top, inPath, later⟩
      · exact .inr answered

theorem WalkOk.finished (single : SingleParents T)
    (ran : Lib.loop (LeaderWalk.step arena F fuel T requested) fuel
      ⟨.init, N, [], [.enter T.entry]⟩ = some w) (ok : N.Ok arena) :
    WalkOk arena F T requested N w ∧ w.stack = [] := by
  obtain ⟨last, walkOk, ended⟩ := Lib.loop_invariant
    (Q := fun w => WalkOk arena F T requested N w) (fun holds stepped => holds.step single stepped)
    (WalkOk.start ok) ran
  unfold LeaderWalk.step at ended
  split at ended
  · next empty =>
      cases ended
      exact ⟨walkOk, empty⟩
  · obtain ⟨_, _, isNext⟩ := Option.map_eq_some_iff.mp ended
    cases isNext
  · obtain ⟨_, _, isNext⟩ := Option.map_eq_some_iff.mp ended
    cases isNext

/-! ## What is asked -/

abbrev Asking := Requests × ValueNumbers

/-- Nothing that has been asked or numbered is lost. -/
structure Grows (state state' : Asking) : Prop where
  numbers : state.2.Extends state'.2
  asked : ∀ {bb e}, e ∈ state.1 bb → e ∈ state'.1 bb

theorem Grows.refl (state : Asking) : Grows state state := ⟨.refl _, id⟩

theorem Grows.trans {first second third : Asking} (grows : Grows first second)
    (grows' : Grows second third) : Grows first third :=
  ⟨grows.numbers.trans grows'.numbers, fun isAsked => grows'.asked (grows.asked isAsked)⟩

/-- The source of the edge is asked for the operation as the edge passes its operands
on. -/
def Asks (arena : Arena) (state : Asking) (params : List Inst) (op : BinaryOp) (lhs rhs : Inst)
    (edge : LogicalEdge) : Prop :=
  ∀ lhs' rhs', translatedOperand params edge lhs = some lhs' →
    translatedOperand params edge rhs = some rhs' → Candidate arena op lhs' rhs' →
      ∃ e ∈ state.1 edge.source, state.2.IsExpr arena op lhs' rhs' e

variable {state state' : Asking} {params : List Inst} {edges : List LogicalEdge} {op : BinaryOp}
  {lhs rhs : Inst} {edge : LogicalEdge}

theorem Asks.mono (asks : Asks arena state params op lhs rhs edge) (grows : Grows state state') :
    Asks arena state' params op lhs rhs edge := by
  intro lhs' rhs' isLhs isRhs candidate
  obtain ⟨e, isAsked, isExpr⟩ := asks lhs' rhs' isLhs isRhs candidate
  exact ⟨e, grows.asked isAsked, isExpr.mono grows.numbers⟩

theorem requestEdges_spec (ok : state.2.Ok arena)
    (ran : requestEdges arena fuel params op lhs rhs edges state = some state') :
    state'.2.Ok arena ∧ Grows state state' ∧
      ∀ edge ∈ edges, Asks arena state' params op lhs rhs edge := by
  induction edges generalizing state with
  | nil =>
    cases ran
    exact ⟨ok, .refl _, by simp⟩
  | cons edge edges ih =>
    obtain ⟨requested, N⟩ := state
    -- the edge has asked already when the rest begins
    have rest : ∀ next : Asking, next.2.Ok arena → Grows (requested, N) next →
        Asks arena next params op lhs rhs edge →
        requestEdges arena fuel params op lhs rhs edges next = some state' →
        state'.2.Ok arena ∧ Grows (requested, N) state' ∧
          ∀ edge' ∈ edge :: edges, Asks arena state' params op lhs rhs edge' := by
      intro next okNext grows asks ran
      obtain ⟨ok', grows', all⟩ := ih okNext ran
      exact ⟨ok', grows.trans grows', List.forall_mem_cons.mpr ⟨asks.mono grows', all⟩⟩
    rw [requestEdges] at ran
    split at ran
    · next lhs' rhs' isLhs isRhs =>
        have operands : ∀ {next : Asking}, (Candidate arena op lhs' rhs' →
            ∃ e ∈ next.1 edge.source, next.2.IsExpr arena op lhs' rhs' e) →
            Asks arena next params op lhs rhs edge := by
          intro next found lhs'' rhs'' isLhs' isRhs' candidate
          cases isLhs.symm.trans isLhs'
          cases isRhs.symm.trans isRhs'
          exact found candidate
        split at ran
        · cases ran
        · next M found =>
            have spec := ValueNumbers.expr_spec ok found
            exact rest (requested, M) spec.ok ⟨spec.grown, id⟩
              (operands fun candidate => absurd candidate (spec.none rfl)) ran
        · next e M found =>
            have spec := ValueNumbers.expr_spec ok found
            refine rest _ spec.ok ⟨spec.grown, ?_⟩ (operands fun _ => ⟨e, ?_, spec.some rfl⟩) ran
            · intro bb e' isAsked
              dsimp only at isAsked ⊢
              split
              · exact isAsked
              · by_cases same : bb = edge.source
                · subst same
                  rw [Function.update_self]
                  exact List.mem_cons_of_mem _ isAsked
                · rw [Function.update_of_ne same]
                  exact isAsked
            · dsimp only
              split
              · assumption
              · rw [Function.update_self]
                exact List.mem_cons_self
    · next missing =>
        refine rest _ ok (.refl _) (fun lhs' rhs' isLhs isRhs _ => ?_) ran
        exact absurd isRhs (missing lhs' rhs' isLhs)

/-- Every operation of the list is asked for along every edge. -/
def AsksAll (arena : Arena) (state : Asking) (params : List Inst) (edges : List LogicalEdge)
    (insts : List Inst) : Prop :=
  ∀ inst ∈ insts, ∀ ty op lhs rhs, arena inst = some ⟨ty, .binary op lhs rhs⟩ →
    ∀ edge ∈ edges, Asks arena state params op lhs rhs edge

theorem requestInsts_spec (ok : state.2.Ok arena)
    (ran : requestInsts arena fuel params edges insts state = some state') :
    state'.2.Ok arena ∧ Grows state state' ∧ AsksAll arena state' params edges insts := by
  induction insts generalizing state with
  | nil =>
    cases ran
    exact ⟨ok, .refl _, fun _ member => by cases member⟩
  | cons inst insts ih =>
    rw [requestInsts] at ran
    split at ran
    · cases ran
    · next ty op lhs rhs isData =>
        obtain ⟨next, here, ran⟩ := Option.bind_eq_some_iff.mp ran
        obtain ⟨okNext, grows, asks⟩ := requestEdges_spec ok here
        obtain ⟨ok', grows', all⟩ := ih okNext ran
        refine ⟨ok', grows.trans grows', fun other member => ?_⟩
        rcases List.mem_cons.mp member with rfl | later
        · intro ty' op' lhs' rhs' isData' edge isEdge
          cases isData.symm.trans isData'
          exact (asks edge isEdge).mono grows'
        · exact all other later
    · next data notBinary isData =>
        obtain ⟨ok', grows, all⟩ := ih ok ran
        refine ⟨ok', grows, fun other member => ?_⟩
        rcases List.mem_cons.mp member with rfl | later
        · intro ty op lhs rhs isBinary
          cases isData.symm.trans isBinary
          exact absurd rfl (notBinary ty op lhs rhs)
        · exact all other later

/-- Every join asks for its operations. -/
theorem requests_spec (ok : state.2.Ok arena) (ran : requests arena F G fuel state = some state') :
    state'.2.Ok arena ∧ Grows state state' ∧ ∀ bb ∈ G.blocks, 2 ≤ (G.incomingEdges F bb).length →
      AsksAll arena state' (F.blockParams bb) (G.incomingEdges F bb)
        ((F.blockInsts bb).getD []) := by
  unfold requests at ran
  generalize G.blocks = blocks at ran
  induction blocks generalizing state with
  | nil =>
    cases ran
    exact ⟨ok, .refl _, fun _ member => by cases member⟩
  | cons bb blocks ih =>
    rw [List.foldlM_cons] at ran
    obtain ⟨next, here, ran⟩ := Option.bind_eq_some_iff.mp ran
    split at here
    · next few =>
        cases here
        obtain ⟨ok', grows, all⟩ := ih ok ran
        refine ⟨ok', grows, List.forall_mem_cons.mpr ⟨fun many => ?_, all⟩⟩
        exact absurd few (Nat.not_lt.mpr many)
    · obtain ⟨okNext, grows, asks⟩ := requestInsts_spec ok here
      obtain ⟨ok', grows', all⟩ := ih okNext ran
      refine ⟨ok', grows.trans grows', List.forall_mem_cons.mpr ⟨fun _ => ?_, all⟩⟩
      intro inst member ty op lhs rhs isData edge isEdge
      exact (asks inst member ty op lhs rhs isData edge isEdge).mono grows'

/-! ## The answers -/

theorem lookup_eq_some_iff_mem {κ β : Type} [BEq κ] [LawfulBEq κ] {list : List (κ × β)} {key : κ}
    {value : β} (functional : ∀ {v w}, (key, v) ∈ list → (key, w) ∈ list → v = w) :
    list.lookup key = some value ↔ (key, value) ∈ list := by
  constructor
  · intro found
    obtain ⟨before, after, rfl, -⟩ := List.lookup_eq_some_iff.mp found
    simp
  · intro member
    cases found : list.lookup key with
    | none =>
      have differ := List.lookup_eq_none_iff.mp found _ member
      simp at differ
    | some other =>
      obtain ⟨before, after, rfl, -⟩ := List.lookup_eq_some_iff.mp found
      rw [functional member (List.mem_append_right _ List.mem_cons_self)]

/-- What an edge of a join brings for an operation of the join, under any numbers given
later. -/
theorem requestedLeaders_spec {output : List ((BasicBlock × Expr) × Inst)}
    (single : SingleParents T) (isEntry : T.entry = G.entry)
    (ran : requestedLeaders arena F G fuel T = some (output, N)) :
    N.Ok arena ∧ ∀ bb ∈ G.blocks, 2 ≤ (G.incomingEdges F bb).length →
      ∀ inst ∈ (F.blockInsts bb).getD [], ∀ ty op lhs rhs,
        arena inst = some ⟨ty, .binary op lhs rhs⟩ → ∀ edge ∈ G.incomingEdges F bb,
          ∀ lhs' rhs', translatedOperand (F.blockParams bb) edge lhs = some lhs' →
            translatedOperand (F.blockParams bb) edge rhs = some rhs' →
              ∀ N' e, N'.Ok arena → N.Extends N' → N'.IsExpr arena op lhs' rhs' e → ∀ leader,
                output.lookup (edge.source, e) = some leader ↔
                  Leads arena F T edge.source op lhs' rhs' leader := by
  unfold requestedLeaders at ran
  obtain ⟨⟨requested, N₀⟩, asked, ran⟩ := Option.bind_eq_some_iff.mp ran
  obtain ⟨w, walked, same⟩ := Option.bind_eq_some_iff.mp ran
  cases same
  rw [← isEntry] at walked
  obtain ⟨ok₀, -, asks⟩ := requests_spec .init asked
  obtain ⟨walkOk, empty⟩ := WalkOk.finished single walked ok₀
  refine ⟨walkOk.ok, ?_⟩
  intro bb isBlock many inst member ty op lhs rhs isData edge isEdge lhs' rhs' isLhs isRhs N' e ok'
    grown isExpr leader
  obtain ⟨e₀, isAsked, isExpr₀⟩ :=
    asks bb isBlock many inst member ty op lhs rhs isData edge isEdge lhs' rhs' isLhs isRhs isExpr.1
  obtain rfl := isExpr.unique ((isExpr₀.mono walkOk.grown).mono grown)
  have answered := walkOk.answered
  rw [empty] at answered
  have functional : ∀ {v v' : Inst}, ((edge.source, e), v) ∈ w.output →
      ((edge.source, e), v') ∈ w.output → v = v' := by
    intro v v' first second
    obtain ⟨-, path, isPath, -, latest⟩ := answered.sound first
    obtain ⟨-, path', isPath', -, latest'⟩ := answered.sound second
    obtain rfl := isPath.unique single isPath'
    exact latest.unique latest'
  rw [lookup_eq_some_iff_mem functional]
  constructor
  · intro found
    obtain ⟨-, path, isPath, scanned, latest⟩ := answered.sound found
    refine ⟨path, isPath, (latest_congr fun other inside => ?_).mp latest⟩
    exact scanned.makes_iff_computes grown ok' isExpr inside
  · rintro ⟨path, isPath, latest⟩
    rcases answered.complete isPath with ⟨_, _, waits⟩ | ⟨scanned, all⟩
    · cases waits
    · refine all e isAsked leader ((latest_congr fun other inside => ?_).mpr latest)
      exact scanned.makes_iff_computes grown ok' isExpr inside

end Walk

end AnonCompiler.Opt.GvnPre
