import Mathlib.Logic.Relation
import Mathlib.Tactic

/-!
# Dominance and the trees that approximate it

A node dominates another when every path from the root to the second goes
through the first.  A dominator tree is computed as a parent map whose value at a
node lies above all predecessors of the node.  Any map with that property is
good for three facts, whether or not it is the tree of immediate dominators:

* what lies above a node dominates it (`Above.dominates`);
* a dominator of a node lies below every node `d` above it, or dominates `d`
  (`Dominates.below_or`);
* where nodes are numbered such that every node has a smaller predecessor, a walk
  down the tree that takes siblings in ascending order enters the dominators of a
  node before the node (`Walk.dominators_entered`).
-/

set_option autoImplicit false

namespace AnonCompiler.Lib

section Dominance

variable {α : Type} (edge : α → α → Prop) (root : α)

/-- There is a path that does not meet `u`. -/
def ReachAvoiding (u a b : α) : Prop :=
  a ≠ u ∧ Relation.ReflTransGen (fun x y => edge x y ∧ y ≠ u) a b

/-- Every path from the root to `v` goes through `u`. -/
def Dominates (u v : α) : Prop := ¬ ReachAvoiding edge u root v

def Reachable (v : α) : Prop := Relation.ReflTransGen edge root v

variable {edge root} {u v w : α}

theorem ReachAvoiding.target_ne (h : ReachAvoiding edge u v w) : w ≠ u := by
  obtain ⟨start, path⟩ := h
  cases path with
  | refl => exact start
  | tail _ last => exact last.2

theorem ReachAvoiding.trans {x : α} (first : ReachAvoiding edge u v w)
    (second : ReachAvoiding edge u w x) :
    ReachAvoiding edge u v x := ⟨first.1, first.2.trans second.2⟩

theorem Dominates.refl (v : α) : Dominates edge root v v := fun path => path.target_ne rfl

/-- A dominator of a node is the node or dominates its predecessors. -/
theorem Dominates.pred (h : Dominates edge root u v) (differ : v ≠ u) (step : edge w v) :
    Dominates edge root u w := fun path => h ⟨path.1, path.2.tail ⟨step, differ⟩⟩

theorem Dominates.eq_root (h : Dominates edge root u root) : u = root := by
  by_contra differ
  exact h ⟨fun same => differ same.symm, .refl⟩

/-- A path to `w` goes through `v`, so its beginning goes through `u`. -/
theorem Dominates.trans (first : Dominates edge root u v) (second : Dominates edge root v w) :
    Dominates edge root u w := by
  intro path
  refine second ⟨?_, ?_⟩
  · rintro rfl
    exact path.1 first.eq_root.symm
  · have start := path.1
    have avoids : ∀ {x}, Relation.ReflTransGen (fun x y => edge x y ∧ y ≠ u) root x →
        Relation.ReflTransGen (fun x y => edge x y ∧ y ≠ v) root x := by
      intro x reached
      induction reached with
      | refl => exact .refl
      | tail before step ih =>
        refine ih.tail ⟨step.1, ?_⟩
        rintro rfl
        exact first ⟨start, before.tail step⟩
    exact avoids path.2

end Dominance

/-! ## Parent maps -/

section Tree

variable {α : Type} (parent : α → α)

/-- `u` is reached from `v` by going to parents. -/
def Above (u v : α) : Prop := Relation.ReflTransGen (fun x y => y = parent x) v u

variable {parent} {edge : α → α → Prop} {root u v w : α}

theorem Above.refl (v : α) : Above parent v v := Relation.ReflTransGen.refl

theorem Above.trans (first : Above parent u v) (second : Above parent v w) : Above parent u w :=
  Relation.ReflTransGen.trans second first

theorem parent_above (v : α) : Above parent (parent v) v := Relation.ReflTransGen.single rfl

theorem Above.eq_or (h : Above parent u v) : u = v ∨ Above parent u (parent v) := by
  rcases Relation.ReflTransGen.cases_head h with same | ⟨next, rfl, rest⟩
  · exact .inl same.symm
  · exact .inr rest

/-- The root is its own parent, and the parent of a node lies above the
predecessors of the node. -/
structure Approximates (parent : α → α) (edge : α → α → Prop) (root : α) : Prop where
  top : parent root = root
  above : ∀ {p v}, v ≠ root → Reachable edge root p → edge p v → Above parent (parent v) p

theorem Above.eq_root (tree : Approximates parent edge root) (h : Above parent u root) :
    u = root := by
  induction h with
  | refl => rfl
  | tail _ step ih => rw [step, ih, tree.top]

theorem Above.dominates (tree : Approximates parent edge root) (h : Above parent u v) :
    Dominates edge root u v := by
  rintro ⟨start, path⟩
  induction path with
  | refl => exact start (h.eq_root tree).symm
  | @tail p v before step ih =>
    have reached : Reachable edge root p :=
      Relation.ReflTransGen.mono (fun _ _ step => step.1) _ _ before
    rcases h.eq_or with same | above
    · exact step.2 same.symm
    · by_cases isRoot : v = root
      · subst isRoot
        rw [tree.top] at above
        exact step.2 (above.eq_root tree).symm
      · exact ih (above.trans (tree.above isRoot reached step.1))

/-- A dominator of a node below `d` lies below `d` too, or dominates `d`. -/
theorem Dominates.below_or (tree : Approximates parent edge root) {d : α}
    (reached : Reachable edge root v) (below : Above parent d v) (h : Dominates edge root u v) :
    Dominates edge root u d ∨ Above parent d u := by
  induction reached with
  | refl =>
    rw [below.eq_root tree]
    exact .inl h
  | @tail p v before step ih =>
    by_cases isD : v = d
    · subst isD
      exact .inl h
    · by_cases isU : v = u
      · subst isU
        exact .inr below
      · have isRoot : v ≠ root := by
          rintro rfl
          exact isD (below.eq_root tree).symm
        have above : Above parent d (parent v) := below.eq_or.resolve_left (Ne.symm isD)
        exact ih (above.trans (tree.above isRoot before step)) (h.pred isU step)

end Tree

/-! ## Walking down the tree -/

section Walk

variable {parent : Nat → Nat} {edge : Nat → Nat → Prop} {children : Nat → List Nat}

/-- A numbered graph with a parent map: node 0 is the root, every other node has a
smaller predecessor, and the children of a node are listed in ascending order. -/
structure Numbered (parent : Nat → Nat) (edge : Nat → Nat → Prop) (children : Nat → List Nat) :
    Prop where
  tree : Approximates parent edge 0
  smaller : ∀ {v}, Reachable edge 0 v → v ≠ 0 → ∃ p, p < v ∧ edge p v ∧ Reachable edge 0 p
  mem_children : ∀ {v c}, c ∈ children v ↔ Reachable edge 0 c ∧ c ≠ 0 ∧ parent c = v
  ascending : ∀ v, (children v).Pairwise (· < ·)

namespace Numbered

variable (graph : Numbered parent edge children) {u v : Nat}

include graph in
theorem dominator_le (h : Dominates edge 0 u v) (reached : Reachable edge 0 v) : u ≤ v := by
  induction v using Nat.strong_induction_on with
  | _ v ih =>
    by_cases same : v = u
    · exact same.ge
    · by_cases isRoot : v = 0
      · subst isRoot
        exact (h.eq_root).le
      · obtain ⟨p, lt, step, reached'⟩ := graph.smaller reached isRoot
        exact (ih p lt (h.pred same step) reached').trans lt.le

theorem reachable_dominator (h : Dominates edge 0 u v) (reached : Reachable edge 0 v) :
    Reachable edge 0 u := by
  by_contra unreachable
  have start : (0 : Nat) ≠ u := by
    rintro rfl
    exact unreachable Relation.ReflTransGen.refl
  refine h ⟨start, ?_⟩
  induction reached with
  | refl => exact .refl
  | @tail p w before step ih =>
    have differ : w ≠ u := by
      rintro rfl
      exact unreachable (before.tail step)
    exact (ih (h.pred differ step)).tail ⟨step, differ⟩

include graph in
theorem above_le (h : Above parent u v) (reached : Reachable edge 0 v) : u ≤ v :=
  graph.dominator_le (h.dominates graph.tree) reached

include graph in
theorem parent_lt (reached : Reachable edge 0 v) (notRoot : v ≠ 0) : parent v < v := by
  obtain ⟨p, lt, step, reached'⟩ := graph.smaller reached notRoot
  exact (graph.above_le (graph.tree.above notRoot reached' step) reached').trans_lt lt

include graph in
theorem reachable_parent (reached : Reachable edge 0 v) : Reachable edge 0 (parent v) :=
  reachable_dominator ((parent_above v).dominates graph.tree) reached

end Numbered

/-- The state of a walk: the nodes entered so far, and those still to be entered,
the next one first. -/
structure Walk (parent : Nat → Nat) (edge : Nat → Nat → Prop)
    (entered stack : List Nat) : Prop where
  root : 0 ∈ entered
  waiting : ∀ x ∈ stack, Reachable edge 0 x ∧ x ≠ 0 ∧ x ∉ entered ∧ parent x ∈ entered
  parents : ∀ x ∈ entered, parent x ∈ entered
  complete : ∀ x, Reachable edge 0 x → x ∉ entered → parent x ∈ entered → x ∈ stack
  ordered : stack.Pairwise fun x y => ∃ b, b ≠ 0 ∧ Reachable edge 0 b ∧
    parent b = parent y ∧ b < y ∧ Above parent b x
  dominators : ∀ y ∈ entered, ∀ a, Reachable edge 0 a → Dominates edge 0 a y → a ∈ entered

namespace Walk

variable {entered stack : List Nat} {x : Nat}

section

variable (graph : Numbered parent edge children)
include graph

theorem start : Walk parent edge [0] (children 0) where
  root := List.mem_singleton_self 0
  waiting := by
    intro x member
    obtain ⟨reached, notRoot, isParent⟩ := graph.mem_children.mp member
    exact ⟨reached, notRoot, by simpa using notRoot, by simp [isParent]⟩
  parents := by
    intro x member
    rw [List.mem_singleton.mp member, graph.tree.top]
    exact List.mem_singleton_self 0
  complete := by
    intro x reached fresh isParent
    exact graph.mem_children.mpr ⟨reached, by simpa using fresh, List.mem_singleton.mp isParent⟩
  ordered := by
    refine (graph.ascending 0).imp_of_mem ?_
    intro x y first second lt
    obtain ⟨reached, notRoot, isParent⟩ := graph.mem_children.mp first
    obtain ⟨-, -, isParent'⟩ := graph.mem_children.mp second
    exact ⟨x, notRoot, reached, isParent.trans isParent'.symm, lt, .refl x⟩
  dominators := by
    intro y member a _ dominates
    rw [List.mem_singleton.mp member] at dominates
    rw [dominates.eq_root]
    exact List.mem_singleton_self 0

/-- A node that has not been entered lies below one that waits. -/
theorem exists_waiting (walk : Walk parent edge entered stack) {a : Nat}
    (reached : Reachable edge 0 a) (fresh : a ∉ entered) : ∃ b ∈ stack, Above parent b a := by
  induction a using Nat.strong_induction_on with
  | _ a ih =>
    have notRoot : a ≠ 0 := by
      rintro rfl
      exact fresh walk.root
    by_cases isEntered : parent a ∈ entered
    · exact ⟨a, walk.complete a reached fresh isEntered, .refl a⟩
    · obtain ⟨b, waits, above⟩ := ih (parent a) (graph.parent_lt reached notRoot)
        (graph.reachable_parent reached) isEntered
      exact ⟨b, waits, above.trans (parent_above a)⟩

/-- The dominators of the next node have been entered. -/
theorem dominators_entered (walk : Walk parent edge entered (x :: stack)) {a : Nat}
    (reached : Reachable edge 0 a) (dominates : Dominates edge 0 a x) (differ : a ≠ x) :
    a ∈ entered := by
  by_contra fresh
  obtain ⟨reachedX, -, -, -⟩ := walk.waiting x (List.mem_cons_self ..)
  obtain ⟨b, waits, above⟩ := walk.exists_waiting graph reached fresh
  have toX : Dominates edge 0 b x := (above.dominates graph.tree).trans dominates
  rcases List.mem_cons.mp waits with rfl | below
  · exact differ (Nat.le_antisymm (graph.dominator_le dominates reachedX)
      (graph.above_le above reached))
  · -- an elder sibling of `b`, or a node below one, has come before `b`
    obtain ⟨elder, notRoot, reachedElder, siblings, lt, aboveX⟩ :=
      (List.pairwise_cons.mp walk.ordered).1 b below
    rcases toX.below_or graph.tree reachedX aboveX with dominated | inside
    · exact absurd (graph.dominator_le dominated reachedElder) (Nat.not_le_of_lt lt)
    · have aboveParent : Above parent elder (parent b) := inside.eq_or.resolve_left lt.ne
      rw [← siblings] at aboveParent
      have le := graph.above_le aboveParent (graph.reachable_parent reachedElder)
      exact absurd (graph.parent_lt reachedElder notRoot) (Nat.not_lt_of_le le)

/-- Entering the next node. -/
theorem enter (walk : Walk parent edge entered (x :: stack)) :
    Walk parent edge (x :: entered) (children x ++ stack) := by
  obtain ⟨reachedX, notRootX, freshX, parentX⟩ := walk.waiting x (List.mem_cons_self ..)
  obtain ⟨above, ordered⟩ := List.pairwise_cons.mp walk.ordered
  have notAgain : x ∉ stack := by
    intro again
    obtain ⟨b, notRoot, reached, siblings, lt, aboveX⟩ := above x again
    have aboveParent : Above parent b (parent x) := aboveX.eq_or.resolve_left lt.ne
    rw [← siblings] at aboveParent
    have le := graph.above_le aboveParent (graph.reachable_parent reached)
    exact absurd (graph.parent_lt reached notRoot) (Nat.not_lt_of_le le)
  have freshChild : ∀ c ∈ children x, c ∉ x :: entered := by
    intro c member isEntered
    obtain ⟨reached, notRoot, isParent⟩ := graph.mem_children.mp member
    rcases List.mem_cons.mp isEntered with rfl | earlier
    · exact absurd (graph.parent_lt reached notRoot) (by rw [isParent]; exact lt_irrefl _)
    · exact freshX (isParent ▸ walk.parents c earlier)
  refine ⟨List.mem_cons_of_mem _ walk.root, ?_, ?_, ?_, ?_, ?_⟩
  · intro y member
    rcases List.mem_append.mp member with isChild | waits
    · obtain ⟨reached, notRoot, isParent⟩ := graph.mem_children.mp isChild
      exact ⟨reached, notRoot, freshChild y isChild, by simp [isParent]⟩
    · obtain ⟨reached, notRoot, fresh, isParent⟩ := walk.waiting y (List.mem_cons_of_mem _ waits)
      refine ⟨reached, notRoot, ?_, List.mem_cons_of_mem _ isParent⟩
      rw [List.mem_cons, not_or]
      refine ⟨?_, fresh⟩
      rintro rfl
      exact notAgain waits
  · intro y member
    rcases List.mem_cons.mp member with rfl | earlier
    · exact List.mem_cons_of_mem _ parentX
    · exact List.mem_cons_of_mem _ (walk.parents y earlier)
  · intro y reached fresh isParent
    rw [List.mem_cons, not_or] at fresh
    rcases List.mem_cons.mp isParent with isX | earlier
    · have notRoot : y ≠ 0 := by
        rintro rfl
        exact fresh.2 walk.root
      exact List.mem_append_left _ (graph.mem_children.mpr ⟨reached, notRoot, isX⟩)
    · have waits := walk.complete y reached fresh.2 earlier
      exact List.mem_append_right _ ((List.mem_cons.mp waits).resolve_left fresh.1)
  · refine List.pairwise_append.mpr ⟨?_, ordered, ?_⟩
    · refine (graph.ascending x).imp_of_mem ?_
      intro y z first second lt
      obtain ⟨reached, notRoot, isParent⟩ := graph.mem_children.mp first
      obtain ⟨-, -, isParent'⟩ := graph.mem_children.mp second
      exact ⟨y, notRoot, reached, isParent.trans isParent'.symm, lt, .refl y⟩
    · intro c isChild y waits
      obtain ⟨-, -, isParent⟩ := graph.mem_children.mp isChild
      obtain ⟨b, notRoot, reached, siblings, lt, aboveX⟩ := above y waits
      exact ⟨b, notRoot, reached, siblings, lt, aboveX.trans (isParent ▸ parent_above c)⟩
  · intro y member a reached dominates
    rcases List.mem_cons.mp member with rfl | earlier
    · by_cases same : a = y
      · exact List.mem_cons.mpr (.inl same)
      · exact List.mem_cons_of_mem _ (walk.dominators_entered graph reached dominates same)
    · exact List.mem_cons_of_mem _ (walk.dominators y earlier a reached dominates)

end

end Walk

end Walk

end AnonCompiler.Lib
