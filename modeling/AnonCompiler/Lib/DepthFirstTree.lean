import Mathlib.Logic.Function.Basic
import AnonCompiler.Lib.DepthFirst

/-!
# The tree of a depth-first search

The nodes marked on the stack of a depth-first search form a path from the root, and
a node becomes a child of the last one of them when it is entered.  When the search
is over, the nodes below a node follow it without a gap in the reverse postorder, and
an edge leads to a node further on or back to a node above its source
(`IsSearchTree`).  As long as no edge has led to a marked node, every edge leads
further on (`Forward`), and the graph has no cycle then.
-/

set_option autoImplicit false

namespace AnonCompiler.Lib.DepthFirst

variable {α : Type}

/-- `x` lies below `u` in the tree, or is `u`. -/
def Below (parent : α → Option α) (x u : α) : Prop :=
  Relation.ReflTransGen (fun a b => parent a = some b) x u

/-- The order is a reverse postorder of a depth-first search: the tree spans it, every subtree is
a piece of it that begins with its root, and an edge that does not lead further on leads to a
node above its source. -/
structure IsSearchTree (succ : α → List α) (root : α) (order : List α) (parent : α → Option α) :
    Prop where
  root_first : order.head? = some root
  parent_root : parent root = none
  child : ∀ v ∈ order, v ≠ root → ∃ p ∈ order, parent v = some p ∧ v ∈ succ p
  subtree : ∀ u ∈ order, ∃ front below back, order = front ++ (u :: below) ++ back ∧
    ∀ x ∈ order, Below parent x u ↔ x ∈ u :: below
  back : ∀ u ∈ order, ∀ v ∈ succ u, Before order u v ∨ Below parent u v

/-- The nodes that have been entered and not left, the last one first. -/
def State.marked (s : State α) : List α := s.stack.filterMap Visit.exiting

/-- A waiting node hangs on the last marked node under it in the stack. -/
def Hangs (succ : α → List α) (root v : α) (rest : List (Visit α)) : Prop :=
  match (rest.filterMap Visit.exiting).head? with
  | none => v = root
  | some p => v ∈ succ p

def Nested (succ : α → List α) (root : α) : List (Visit α) → Prop
  | [] => True
  | visit :: rest => Hangs succ root visit.node rest ∧ Nested succ root rest

structure Growing (succ : α → List α) (root : α) (parent : α → Option α) (s : State α) : Prop where
  nested : Nested succ root s.stack
  chain : s.marked.IsChain fun a b => parent a = some b
  known : ∀ {v p}, parent v = some p → v ∈ succ p ∧ s.Seen v ∧ s.Seen p
  parent_root : parent root = none
  child : ∀ v ∈ s.path, v ≠ root → ∃ p, parent v = some p
  pending : ∀ above {u below}, s.stack = above ++ .exit u :: below →
    ∀ w ∈ succ u, s.Seen w ∨ .enter w ∈ above
  opened : ∀ u ∈ s.marked, ∃ new old, s.path = new ++ old ∧ (∀ x ∈ new, Below parent x u) ∧
    ∀ x ∈ old, ¬ Below parent x u
  closed : ∀ u ∈ s.path, ∃ front below back, s.path = front ++ (u :: below) ++ back ∧
    ∀ x ∈ s.path, Below parent x u ↔ x ∈ u :: below
  back : ∀ u ∈ s.path, ∀ w ∈ succ u, Before s.path u w ∨ Below parent u w

variable {succ : α → List α} {root u v w x : α} {s s' : State α} {parent : α → Option α}

variable {next path list : List α} {rest : List (Visit α)}

theorem IsSearchTree.congr {succ' : α → List α} {order : List α}
    (tree : IsSearchTree succ root order parent) (same : ∀ u ∈ order, succ u = succ' u) :
    IsSearchTree succ' root order parent where
  root_first := tree.root_first
  parent_root := tree.parent_root
  child := by
    intro v member notRoot
    obtain ⟨p, known, isParent, edge⟩ := tree.child v member notRoot
    exact ⟨p, known, isParent, same p known ▸ edge⟩
  subtree := tree.subtree
  back := fun u member v edge => tree.back u member v (same u member ▸ edge)

theorem mem_marked : v ∈ s.marked ↔ .exit v ∈ s.stack := mem_exiting

@[simp] theorem marked_enter (path : List α) (v : α) (rest : List (Visit α)) :
    State.marked ⟨path, .enter v :: rest⟩ = State.marked ⟨path, rest⟩ := rfl

@[simp] theorem marked_exit (path : List α) (v : α) (rest : List (Visit α)) :
    State.marked ⟨path, .exit v :: rest⟩ = v :: State.marked ⟨path, rest⟩ := rfl

@[simp] theorem marked_enters (path next : List α) (rest : List (Visit α)) :
    State.marked ⟨path, next.map .enter ++ rest⟩ = State.marked ⟨path, rest⟩ := by
  rw [State.marked, List.filterMap_append, exiting_enters]
  rfl

theorem seen_iff : s.Seen v ↔ v ∈ s.path ∨ v ∈ s.marked := by rw [State.Seen, mem_marked]

theorem nested_enters (among : ∀ w ∈ next, w ∈ succ v)
    (nested : Nested succ root (.exit v :: rest)) :
    Nested succ root (next.map Visit.enter ++ .exit v :: rest) := by
  induction next with
  | nil => exact nested
  | cons w next ih =>
    obtain ⟨first, others⟩ := List.forall_mem_cons.mp among
    refine ⟨?_, ih others⟩
    change Hangs succ root w (next.map Visit.enter ++ .exit v :: rest)
    rw [Hangs, List.filterMap_append, exiting_enters]
    exact first

theorem before_head (member : w ∈ path) : Before (u :: path) u w := by
  obtain ⟨front, back, rfl⟩ := List.append_of_mem member
  exact ⟨u :: front, back, rfl, List.mem_cons_self⟩

/-- A mark on the stack after a node was entered is that of the node, or an older one. -/
theorem split_enters {above below : List (Visit α)}
    (isStack : next.map Visit.enter ++ .exit v :: rest = above ++ .exit u :: below) :
    above = next.map Visit.enter ∧ u = v ∨
      ∃ above', above = next.map Visit.enter ++ .exit v :: above' ∧
        rest = above' ++ .exit u :: below := by
  rcases List.append_eq_append_iff.mp isStack with ⟨more, rfl, isRest⟩ | ⟨more, isNext, isRest⟩
  · cases more with
    | nil =>
      cases isRest
      exact .inl ⟨List.append_nil _, rfl⟩
    | cons first more =>
      cases isRest
      exact .inr ⟨more, rfl, rfl⟩
  · cases more with
    | nil =>
      cases isRest
      exact .inl ⟨by rw [isNext, List.append_nil], rfl⟩
    | cons first more =>
      cases isRest
      have waits : Visit.exit u ∈ next.map Visit.enter := by
        rw [isNext]
        exact List.mem_append_right _ List.mem_cons_self
      simp at waits

/-! ## The path of marked nodes -/

theorem below_of_chain (chain : (v :: list).IsChain fun a b => parent a = some b)
    (member : w ∈ v :: list) : Below parent v w := by
  induction list generalizing v with
  | nil =>
    obtain rfl := List.mem_singleton.mp member
    exact .refl
  | cons next list ih =>
    obtain ⟨edge, chain⟩ := List.isChain_cons_cons.mp chain
    rcases List.mem_cons.mp member with rfl | later
    · exact .refl
    · exact .head edge (ih chain later)

theorem parent_mem_of_chain (chain : list.IsChain fun a b => parent a = some b)
    (last : ∀ a, list.getLast? = some a → parent a = none) (member : v ∈ list)
    (isParent : parent v = some w) : w ∈ list := by
  induction list with
  | nil => cases member
  | cons first list ih =>
    cases list with
    | nil =>
      obtain rfl := List.mem_singleton.mp member
      rw [last v rfl] at isParent
      cases isParent
    | cons next list =>
      obtain ⟨edge, chain⟩ := List.isChain_cons_cons.mp chain
      rcases List.mem_cons.mp member with rfl | later
      · rw [edge] at isParent
        obtain rfl := Option.some.inj isParent
        exact List.mem_cons_of_mem _ List.mem_cons_self
      · exact List.mem_cons_of_mem _
          (ih chain (fun a isLast => last a (by simpa using isLast)) later)

section Path

variable (h : Searching succ root s) (g : Growing succ root parent s)

include h in
theorem Searching.marked_nodup : s.marked.Nodup := (List.nodup_append.mp h.nodup).2.1

include h in
theorem Searching.not_marked (left : v ∈ s.path) : v ∉ s.marked := fun waits =>
  (List.nodup_append.mp h.nodup).2.2 v left v waits rfl

include h in
/-- The first node to be marked is the root. -/
theorem Searching.last_marked (isLast : s.marked.getLast? = some v) : v = root := by
  rcases h.bottom with rfl | ⟨above, isStack⟩ | ⟨empty, -⟩
  · cases isLast
  · rw [State.marked, isStack, List.filterMap_append] at isLast
    simpa [Visit.exiting] using isLast.symm
  · rw [State.marked, empty] at isLast
    cases isLast

include h g

/-- What lies above a marked node is marked. -/
theorem Growing.marked_of_below (waits : v ∈ s.marked) (below : Below parent v w) :
    w ∈ s.marked := by
  induction below with
  | refl => exact waits
  | tail _ edge ih =>
    refine parent_mem_of_chain g.chain (fun a isLast => ?_) ih edge
    rw [h.last_marked isLast]
    exact g.parent_root

end Path

/-! ## One turn -/

section Turn

variable (g : Growing succ root parent s)

include g in
/-- Nothing lies below a node that has not been seen. -/
theorem Growing.eq_of_below_fresh (fresh : ¬ s.Seen v) (below : Below parent x v) : x = v := by
  rcases Relation.ReflTransGen.cases_tail below with same | ⟨y, -, edge⟩
  · exact same.symm
  · exact absurd (g.known edge).2.2 fresh

include g in
/-- A new node changes nothing above the nodes seen before. -/
theorem Growing.below_update [DecidableEq α] {p : Option α} (fresh : ¬ s.Seen v) (seen : s.Seen x) :
    Below (Function.update parent v p) x u ↔ Below parent x u := by
  have same : ∀ {y}, s.Seen y → Function.update parent v p y = parent y := by
    intro y seenY
    refine Function.update_of_ne ?_ _ _
    rintro rfl
    exact fresh seenY
  constructor
  · intro below
    induction below using Relation.ReflTransGen.head_induction_on with
    | refl => exact .refl
    | head edge _ ih =>
      rw [same seen] at edge
      exact .head edge (ih (g.known edge).2.2)
  · intro below
    induction below using Relation.ReflTransGen.head_induction_on with
    | refl => exact .refl
    | head edge _ ih => exact .head ((same seen).trans edge) (ih (g.known edge).2.2)

end Turn

namespace Growing

theorem init (succ : α → List α) (root : α) :
    Growing succ root (fun _ => none) ⟨[], [.enter root]⟩ where
  nested := ⟨rfl, trivial⟩
  chain := List.isChain_nil
  known := by simp
  parent_root := rfl
  child := by simp
  pending := by
    intro above u below isStack
    have waits : Visit.exit u ∈ [Visit.enter root] := by
      rw [show [Visit.enter root] = above ++ .exit u :: below from isStack]
      exact List.mem_append_right _ List.mem_cons_self
    simp at waits
  opened := by simp [State.marked, Visit.exiting]
  closed := by simp
  back := by simp

/-- A node already seen is dropped. -/
theorem skip {path : List α} {rest : List (Visit α)}
    (g : Growing succ root parent ⟨path, .enter v :: rest⟩)
    (again : State.Seen ⟨path, rest⟩ v) : Growing succ root parent ⟨path, rest⟩ := by
  have seen_iff : ∀ {w}, State.Seen ⟨path, .enter v :: rest⟩ w ↔ State.Seen ⟨path, rest⟩ w := by
    simp [State.Seen]
  refine ⟨g.nested.2, g.chain, ?_, g.parent_root, g.child, ?_, g.opened, g.closed, g.back⟩
  · intro w p isParent
    exact (g.known isParent).imp_right fun seen => seen.imp seen_iff.mp seen_iff.mp
  · intro above u below isStack w edge
    have isStack' : rest = above ++ .exit u :: below := isStack
    rcases g.pending (.enter v :: above) (by rw [isStack']; rfl) w edge with seen | waits
    · exact .inl (seen_iff.mp seen)
    · rcases List.mem_cons.mp waits with same | waits
      · cases same
        exact .inl again
      · exact .inr waits

/-- A node is left. -/
theorem leave {path : List α} {rest : List (Visit α)}
    (h : Searching succ root ⟨path, .exit v :: rest⟩)
    (g : Growing succ root parent ⟨path, .exit v :: rest⟩) :
    Growing succ root parent ⟨v :: path, rest⟩ := by
  have seen_iff : ∀ {w}, State.Seen ⟨v :: path, rest⟩ w ↔
      State.Seen ⟨path, .exit v :: rest⟩ w := by
    intro w
    simp only [State.Seen, List.mem_cons, Visit.exit.injEq]
    tauto
  have chain : (v :: State.marked ⟨path, rest⟩).IsChain fun a b => parent a = some b := g.chain
  have notLeft : ∀ {w}, w ∈ State.marked ⟨path, .exit v :: rest⟩ → w ∉ path :=
    fun waits left => h.not_marked left waits
  have waitsV : v ∈ State.marked ⟨path, .exit v :: rest⟩ := List.mem_cons_self
  have others : v ∉ State.marked ⟨path, rest⟩ := (List.nodup_cons.mp h.marked_nodup).1
  refine ⟨g.nested.2, chain.tail, ?_, g.parent_root, ?_, ?_, ?_, ?_, ?_⟩
  · intro w p isParent
    exact (g.known isParent).imp_right fun seen => seen.imp seen_iff.mpr seen_iff.mpr
  · intro w left notRoot
    rcases List.mem_cons.mp left with rfl | left
    · have hangs : Hangs succ root w rest := g.nested.1
      have isFirst := (List.isChain_cons.mp chain).1
      unfold Hangs at hangs
      split at hangs
      · exact absurd hangs notRoot
      · next p isHead => exact ⟨p, isFirst p isHead⟩
    · exact g.child w left notRoot
  · intro above u below isStack w edge
    have isStack' : rest = above ++ .exit u :: below := isStack
    rcases g.pending (.exit v :: above) (by rw [isStack']; rfl) w edge with seen | waits
    · exact .inl (seen_iff.mpr seen)
    · exact .inr (by simpa using waits)
  · intro u waits
    obtain ⟨new, old, isPath, new_below, old_below⟩ := g.opened u (List.mem_cons_of_mem _ waits)
    refine ⟨v :: new, old, by rw [show path = new ++ old from isPath]; rfl, ?_, old_below⟩
    intro x member
    rcases List.mem_cons.mp member with rfl | member
    · exact below_of_chain chain (List.mem_cons_of_mem _ waits)
    · exact new_below x member
  · intro u inPath
    rcases List.mem_cons.mp inPath with rfl | left
    · obtain ⟨new, old, isPath, new_below, old_below⟩ := g.opened u waitsV
      have isPath' : path = new ++ old := isPath
      refine ⟨[], new, old, by rw [isPath']; rfl, fun x member =>
        ⟨fun below => ?_, fun inside => ?_⟩⟩
      · rcases List.mem_cons.mp member with rfl | member
        · exact List.mem_cons_self
        · rw [isPath'] at member
          rcases List.mem_append.mp member with new | old
          · exact List.mem_cons_of_mem _ new
          · exact absurd below (old_below x old)
      · rcases List.mem_cons.mp inside with rfl | inside
        · exact .refl
        · exact new_below x inside
    · obtain ⟨front, below, back, isPath, below_iff⟩ := g.closed u left
      have isPath' : path = front ++ (u :: below) ++ back := isPath
      refine ⟨v :: front, below, back, by rw [isPath']; rfl, fun x member => ?_⟩
      rcases List.mem_cons.mp member with rfl | member
      · refine ⟨fun under => absurd left (notLeft (g.marked_of_below h waitsV under)),
          fun inside => ?_⟩
        refine absurd ?_ (notLeft waitsV)
        rw [isPath']
        exact List.mem_append_left _ (List.mem_append_right _ inside)
      · exact below_iff x member
  · intro u left w edge
    rcases List.mem_cons.mp left with rfl | left
    · have seen : State.Seen ⟨path, .exit u :: rest⟩ w :=
        (g.pending [] rfl w edge).resolve_right List.not_mem_nil
      rcases DepthFirst.seen_iff.mp seen with done | waits
      · exact .inl (before_head done)
      · exact .inr (below_of_chain chain waits)
    · exact (g.back u left w edge).imp_left fun before => before.cons v

/-- A node is entered, as a child of the last marked node. -/
theorem enter [DecidableEq α] {path : List α} {rest : List (Visit α)} {next : List α}
    (h : Searching succ root ⟨path, .enter v :: rest⟩)
    (g : Growing succ root parent ⟨path, .enter v :: rest⟩) (fresh : ¬ State.Seen ⟨path, rest⟩ v)
    (among : next.Sublist (succ v))
    (all : ∀ w ∈ succ v, w = v ∨ State.Seen ⟨path, rest⟩ w ∨ w ∈ next) :
    Growing succ root (Function.update parent v (State.marked ⟨path, rest⟩).head?)
      ⟨path, next.map .enter ++ .exit v :: rest⟩ := by
  let s : State α := ⟨path, .enter v :: rest⟩
  let s' : State α := ⟨path, next.map .enter ++ .exit v :: rest⟩
  have fresh' : ¬ s.Seen v := by simpa [s, State.Seen] using fresh
  have seen_iff : ∀ {w}, s'.Seen w ↔ w = v ∨ s.Seen w := by
    intro w
    simp only [s, s', State.Seen, List.mem_append, List.mem_map, reduceCtorEq, and_false,
      exists_false, false_or, List.mem_cons, Visit.exit.injEq]
    tauto
  have marked : s'.marked = v :: s.marked := by simp [s, s']
  have seenOfPath : ∀ {w}, w ∈ path → s.Seen w := fun left => .inl left
  have seenOfMarked : ∀ {w}, w ∈ s.marked → s.Seen w := fun waits =>
    DepthFirst.seen_iff.mpr (.inr waits)
  have below_iff : ∀ {x u}, s.Seen x →
      (Below (Function.update parent v s.marked.head?) x u ↔ Below parent x u) :=
    fun seen => g.below_update fresh' seen
  have parentV : Function.update parent v s.marked.head? v = s.marked.head? :=
    Function.update_self ..
  have parentOf : ∀ {w}, s.Seen w → Function.update parent v s.marked.head? w = parent w := by
    intro w seen
    refine Function.update_of_ne ?_ _ _
    rintro rfl
    exact fresh' seen
  have hangs : Hangs succ root v rest := g.nested.1
  refine ⟨nested_enters (fun w member => among.subset member) g.nested,
    ?_, ?_, ?_, ?_, ?_, ?_, ?_, ?_⟩
  · change s'.marked.IsChain _
    rw [marked, List.isChain_cons]
    refine ⟨fun p isHead => parentV.trans isHead, ?_⟩
    exact g.chain.imp_of_mem_imp fun a b waits _ edge => (parentOf (seenOfMarked waits)).trans edge
  · intro w p isParent
    change w ∈ succ p ∧ s'.Seen w ∧ s'.Seen p
    rw [seen_iff, seen_iff]
    by_cases same : w = v
    · subst same
      have isHead : s.marked.head? = some p := parentV.symm.trans isParent
      have edge : w ∈ succ p := by
        rw [Hangs] at hangs
        simpa only [show (rest.filterMap Visit.exiting).head? = some p from isHead] using hangs
      exact ⟨edge, .inl rfl, .inr (seenOfMarked (List.mem_of_mem_head? isHead))⟩
    · rw [Function.update_of_ne same] at isParent
      exact (g.known isParent).imp_right fun seen => seen.imp .inr .inr
  · by_cases same : root = v
    · subst same
      have empty : s.marked = [] := by
        rcases h.bottom with isInit | ⟨above, isStack⟩ | ⟨none, -⟩
        · simp only [s, isInit]
          rfl
        · refine absurd (.inr ?_) fresh'
          rw [isStack]
          exact List.mem_append_right _ List.mem_cons_self
        · cases none
      exact parentV.trans (by rw [empty]; rfl)
    · exact (Function.update_of_ne same _ _).trans g.parent_root
  · intro w left notRoot
    obtain ⟨p, isParent⟩ := g.child w left notRoot
    exact ⟨p, (parentOf (seenOfPath left)).trans isParent⟩
  · intro above u below isStack w edge
    change s'.Seen w ∨ _
    have ofV : w ∈ succ v → s'.Seen w ∨ w ∈ next := by
      intro edge
      rw [seen_iff]
      rcases all w edge with same | seen | isNext
      · exact .inl (.inl same)
      · exact .inl (.inr (by simpa [s, State.Seen] using seen))
      · exact .inr isNext
    rcases split_enters isStack with ⟨rfl, rfl⟩ | ⟨above', rfl, isRest⟩
    · exact (ofV edge).imp_right List.mem_map_of_mem
    · have before := g.pending (.enter v :: above') (by rw [isRest]; rfl) w edge
      rcases before with seen | waits
      · exact .inl (seen_iff.mpr (.inr seen))
      · rcases List.mem_cons.mp waits with same | waits
        · cases same
          exact .inl (seen_iff.mpr (.inl rfl))
        · exact .inr (List.mem_append_right _ (List.mem_cons_of_mem _ waits))
  · intro u waits
    change u ∈ s'.marked at waits
    rw [marked] at waits
    rcases List.mem_cons.mp waits with rfl | waits
    · refine ⟨[], path, rfl, by simp, fun x left below => ?_⟩
      obtain rfl := g.eq_of_below_fresh fresh' ((below_iff (seenOfPath left)).mp below)
      exact fresh' (seenOfPath left)
    · obtain ⟨new, old, isPath, new_below, old_below⟩ := g.opened u waits
      have isPath' : path = new ++ old := isPath
      refine ⟨new, old, isPath, fun x member => ?_, fun x member below => ?_⟩
      · exact (below_iff (seenOfPath (isPath' ▸ List.mem_append_left _ member))).mpr
          (new_below x member)
      · exact old_below x member
          ((below_iff (seenOfPath (isPath' ▸ List.mem_append_right _ member))).mp below)
  · intro u left
    obtain ⟨front, below, back, isPath, inside⟩ := g.closed u left
    exact ⟨front, below, back, isPath, fun x member =>
      (below_iff (seenOfPath member)).trans (inside x member)⟩
  · intro u left w edge
    exact (g.back u left w edge).imp_right (below_iff (seenOfPath left)).mpr

theorem step (h : Searching succ root s) (g : Growing succ root parent s)
    (stepped : Step succ s s') : ∃ parent', Growing succ root parent' s' := by
  classical
  cases stepped with
  | skip again => exact ⟨_, g.skip again⟩
  | enter fresh among all => exact ⟨_, g.enter h fresh among all⟩
  | exit => exact ⟨_, g.leave h⟩

/-- What a search that has come to an end leaves behind. -/
theorem finished (h : Searching succ root s) (g : Growing succ root parent s)
    (empty : s.stack = []) : IsSearchTree succ root s.path parent where
  root_first := by
    rcases h.bottom with rfl | ⟨above, isStack⟩ | ⟨-, head⟩
    · cases empty
    · simp [empty] at isStack
    · exact head
  parent_root := g.parent_root
  child := by
    intro v member notRoot
    obtain ⟨p, isParent⟩ := g.child v member notRoot
    obtain ⟨edge, -, seen⟩ := g.known isParent
    exact ⟨p, by simpa [State.Seen, empty] using seen, isParent, edge⟩
  subtree := g.closed
  back := g.back

/-- What lies below a node can be reached from it. -/
theorem reaches_of_below (g : Growing succ root parent s) (below : Below parent x u) :
    Relation.ReflTransGen (fun p v => v ∈ succ p) u x := by
  induction below using Relation.ReflTransGen.head_induction_on with
  | refl => exact .refl
  | head edge _ ih => exact ih.tail (g.known edge).1

end Growing

/-! ## Cycles -/

/-- The node to be entered has an edge to a marked node, or to itself. -/
def Closes (succ : α → List α) (s : State α) : Prop :=
  ∃ v rest, s.stack = .enter v :: rest ∧ ¬ State.Seen ⟨s.path, rest⟩ v ∧
    ∃ w ∈ succ v, w = v ∨ .exit w ∈ rest

/-- No edge leads back. -/
structure Forward (succ : α → List α) (s : State α) : Prop where
  left : ∀ u ∈ s.path, ∀ w ∈ succ u, Before s.path u w
  marked : ∀ above {u below}, s.stack = above ++ .exit u :: below →
    ∀ w ∈ succ u, w ≠ u ∧ .exit w ∉ below

/-- The graph has a cycle that can be reached. -/
def Cyclic (succ : α → List α) (root : α) : Prop :=
  ∃ v, Reachable (fun p v => v ∈ succ p) root v ∧ Relation.TransGen (fun p v => v ∈ succ p) v v

/-- A marked node leads to the node on top of the stack. -/
theorem Growing.path_of_marked (g : Growing succ root parent ⟨path, .enter v :: rest⟩)
    (waits : .exit w ∈ rest) : Relation.TransGen (fun p v => v ∈ succ p) w v := by
  have waits' : w ∈ State.marked ⟨path, rest⟩ := mem_marked.mpr waits
  have chain : (State.marked ⟨path, rest⟩).IsChain fun a b => parent a = some b := g.chain
  have hangs : Hangs succ root v rest := g.nested.1
  rw [Hangs, show rest.filterMap Visit.exiting = State.marked ⟨path, rest⟩ from rfl] at hangs
  cases marked : State.marked ⟨path, rest⟩ with
  | nil =>
    rw [marked] at waits'
    cases waits'
  | cons p others =>
    rw [marked] at hangs chain waits'
    exact Relation.TransGen.tail' (g.reaches_of_below (below_of_chain chain waits')) hangs

/-- An edge to a marked node closes a cycle. -/
theorem Closes.cyclic (closes : Closes succ s) (h : Searching succ root s)
    (g : Growing succ root parent s) : Cyclic succ root := by
  obtain ⟨path, stack⟩ := s
  obtain ⟨v, rest, isStack, -, w, edge, isBack⟩ := closes
  obtain rfl : stack = .enter v :: rest := isStack
  refine ⟨v, h.reached (.inr List.mem_cons_self), ?_⟩
  rcases isBack with rfl | waits
  · exact .single edge
  · exact .head edge (g.path_of_marked waits)

namespace Forward

theorem init (succ : α → List α) (root : α) : Forward succ ⟨[], [.enter root]⟩ where
  left := by simp
  marked := by
    intro above u below isStack
    have waits : Visit.exit u ∈ [Visit.enter root] := by
      rw [show [Visit.enter root] = above ++ .exit u :: below from isStack]
      exact List.mem_append_right _ List.mem_cons_self
    simp at waits

/-- A turn that closes no cycle. -/
theorem step (forward : Forward succ s) (g : Growing succ root parent s) (stepped : Step succ s s')
    (open_ : ¬ Closes succ s) : Forward succ s' := by
  cases stepped with
  | @skip path v rest again =>
    refine ⟨forward.left, fun above {u below} isStack => ?_⟩
    have isStack' : rest = above ++ .exit u :: below := isStack
    exact forward.marked (.enter v :: above) (by rw [isStack']; rfl)
  | @enter path v rest next fresh among all =>
    refine ⟨forward.left, fun above {u below} isStack => ?_⟩
    rcases split_enters isStack with ⟨rfl, rfl⟩ | ⟨above', rfl, isRest⟩
    · intro w edge
      have isBelow : rest = below := by simpa using isStack
      have notBack : ¬ (w = u ∨ .exit w ∈ rest) := fun isBack =>
        open_ ⟨u, rest, rfl, fresh, w, edge, isBack⟩
      rw [not_or, isBelow] at notBack
      exact notBack
    · exact forward.marked (.enter v :: above') (by rw [isRest]; rfl)
  | @exit path v rest =>
    refine ⟨fun u inPath w edge => ?_, fun above {u below} isStack => ?_⟩
    · rcases List.mem_cons.mp inPath with rfl | left
      · obtain ⟨other, notMarked⟩ := forward.marked [] rfl w edge
        rcases (g.pending [] rfl w edge).resolve_right List.not_mem_nil with done | waits
        · exact before_head done
        · rcases List.mem_cons.mp waits with same | waits
          · cases same
            exact absurd rfl other
          · exact absurd waits notMarked
      · exact (forward.left u left w edge).cons v
    · have isStack' : rest = above ++ .exit u :: below := isStack
      exact forward.marked (.exit v :: above) (by rw [isStack']; rfl)

/-- Edges that lead further on form no cycle. -/
theorem acyclic [DecidableEq α] (forward : Forward succ s) (h : Searching succ root s)
    (empty : s.stack = []) : ¬ Cyclic succ root := by
  rintro ⟨v, reached, cycle⟩
  obtain ⟨members, nodup, -, -⟩ := h.finished empty
  have further : ∀ {w}, Relation.TransGen (fun p v => v ∈ succ p) v w →
      s.path.idxOf v < s.path.idxOf w ∧ w ∈ s.path := by
    intro w path
    induction path with
    | single edge =>
      exact ⟨(forward.left v ((members v).mp reached) _ edge).idxOf_lt nodup,
        (members _).mp (reached.tail edge)⟩
    | tail _ edge ih =>
      obtain ⟨lt, member⟩ := ih
      exact ⟨lt.trans ((forward.left _ member _ edge).idxOf_lt nodup),
        (members _).mp (((members _).mpr member).tail edge)⟩
  exact lt_irrefl _ (further cycle).1

end Forward

end AnonCompiler.Lib.DepthFirst
