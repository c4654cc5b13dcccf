import AnonCompiler.Lib.Dominance
import Mathlib.Data.List.Perm.Basic

/-!
# Reverse postorder

A depth-first search with a stack of its own: a node is entered, its successors are
put on the stack above a mark at which the node is left, and when it is left it is
put in front of the nodes that were left before.  At the end the list holds the
reachable nodes, the root first, and every other node has a predecessor before it
(`Searching.finished`).  On a finite graph the search comes to an end
(`Step.weight_lt`).
-/

set_option autoImplicit false

namespace AnonCompiler.Lib.DepthFirst

variable {α : Type}

inductive Visit (α : Type) where
  | enter (node : α)
  | exit (node : α)
deriving DecidableEq, Repr

namespace Visit

def node : Visit α → α
  | enter node => node
  | exit node => node

def exiting : Visit α → Option α
  | enter _ => none
  | exit node => some node

end Visit

structure State (α : Type) where
  path : List α
  stack : List (Visit α)

/-- The nodes that have been entered. -/
def State.Seen (s : State α) (v : α) : Prop := v ∈ s.path ∨ .exit v ∈ s.stack

/-- One turn of the search.  The successors in `next` are those that may not have been seen. -/
inductive Step (succ : α → List α) : State α → State α → Prop
  | skip {path : List α} {v : α} {rest : List (Visit α)} (again : State.Seen ⟨path, rest⟩ v) :
      Step succ ⟨path, .enter v :: rest⟩ ⟨path, rest⟩
  | enter {path : List α} {v : α} {rest : List (Visit α)} {next : List α}
      (fresh : ¬ State.Seen ⟨path, rest⟩ v) (among : next.Sublist (succ v))
      (all : ∀ w ∈ succ v, w = v ∨ State.Seen ⟨path, rest⟩ w ∨ w ∈ next) :
      Step succ ⟨path, .enter v :: rest⟩ ⟨path, next.map .enter ++ .exit v :: rest⟩
  | exit {path : List α} {v : α} {rest : List (Visit α)} :
      Step succ ⟨path, .exit v :: rest⟩ ⟨v :: path, rest⟩

/-- What waits on the stack is the root or a successor of a node that is left later. -/
def Hung (succ : α → List α) (root : α) : List (Visit α) → Prop
  | [] => True
  | visit :: rest =>
    (visit.node = root ∨ ∃ p, .exit p ∈ rest ∧ visit.node ∈ succ p) ∧ Hung succ root rest

def Before (path : List α) (p v : α) : Prop := ∃ front back, path = front ++ v :: back ∧ p ∈ front

structure Searching (succ : α → List α) (root : α) (s : State α) : Prop where
  reached : ∀ {v}, v ∈ s.path ∨ v ∈ s.stack.map Visit.node →
    Reachable (fun p v => v ∈ succ p) root v
  closed : ∀ {v}, s.Seen v → ∀ w ∈ succ v, s.Seen w ∨ .enter w ∈ s.stack
  nodup : (s.path ++ s.stack.filterMap Visit.exiting).Nodup
  hung : Hung succ root s.stack
  earlier : ∀ v ∈ s.path, v = root ∨ ∃ p, v ∈ succ p ∧ (.exit p ∈ s.stack ∨ Before s.path p v)
  bottom : s = ⟨[], [.enter root]⟩ ∨ (∃ above, s.stack = above ++ [.exit root]) ∨
    s.stack = [] ∧ s.path.head? = some root

variable {succ : α → List α} {root : α} {s s' : State α}

theorem mem_exiting {v : α} {stack : List (Visit α)} :
    v ∈ stack.filterMap Visit.exiting ↔ .exit v ∈ stack := by
  rw [List.mem_filterMap]
  constructor
  · rintro ⟨visit, member, same⟩
    cases visit with
    | enter => cases same
    | exit => cases same; exact member
  · exact fun member => ⟨_, member, rfl⟩

@[simp] theorem exiting_enters (nodes : List α) :
    (nodes.map Visit.enter).filterMap Visit.exiting = [] := by
  rw [List.filterMap_map]
  exact List.filterMap_eq_nil_iff.mpr fun _ _ => rfl

theorem Before.cons {path : List α} {p v : α} (h : Before path p v) (x : α) :
    Before (x :: path) p v := by
  obtain ⟨front, back, rfl, member⟩ := h
  exact ⟨x :: front, back, rfl, List.mem_cons_of_mem _ member⟩

theorem Before.idxOf_lt [DecidableEq α] {path : List α} {p v : α} (h : Before path p v)
    (nodup : path.Nodup) : path.idxOf p < path.idxOf v := by
  obtain ⟨front, back, rfl, member⟩ := h
  have absent : v ∉ front := by
    intro again
    exact (List.nodup_append.mp nodup).2.2 v again v List.mem_cons_self rfl
  rw [List.idxOf_append_of_mem member, List.idxOf_append_of_notMem absent]
  exact Nat.lt_add_right _ (List.idxOf_lt_length_of_mem member)

theorem hung_enters {next : List α} {v : α} {rest : List (Visit α)} (among : ∀ w ∈ next, w ∈ succ v)
    (hung : Hung succ root (.exit v :: rest)) :
    Hung succ root (next.map Visit.enter ++ .exit v :: rest) := by
  induction next with
  | nil => exact hung
  | cons w next ih =>
    obtain ⟨first, others⟩ := List.forall_mem_cons.mp among
    exact ⟨.inr ⟨v, List.mem_append_right _ List.mem_cons_self, first⟩, ih others⟩

namespace Searching

theorem init (succ : α → List α) (root : α) : Searching succ root ⟨[], [.enter root]⟩ where
  reached := by
    rintro v (absurd | waits)
    · cases absurd
    · obtain rfl : v = root := by simpa [Visit.node] using waits
      exact Relation.ReflTransGen.refl
  closed := by simp [State.Seen]
  nodup := List.nodup_nil
  hung := ⟨.inl rfl, trivial⟩
  earlier := by simp
  bottom := .inl rfl

theorem step (h : Searching succ root s) (stepped : Step succ s s') : Searching succ root s' := by
  cases stepped with
  | @skip path v rest again =>
    refine ⟨fun waits => h.reached (waits.imp_right (List.mem_cons_of_mem _)), ?_, h.nodup,
      h.hung.2, ?_, ?_⟩
    · intro w seen x edge
      rcases h.closed (seen.imp_right (List.mem_cons_of_mem _)) x edge with known | waits
      · exact .inl (known.imp_right fun member => by simpa using member)
      · rcases List.mem_cons.mp waits with same | waits
        · cases same
          exact .inl again
        · exact .inr waits
    · intro w member
      refine (h.earlier w member).imp_right ?_
      rintro ⟨p, edge, waits⟩
      exact ⟨p, edge, waits.imp_left fun member => by simpa using member⟩
    · rcases h.bottom with same | ⟨above, isStack⟩ | ⟨empty, -⟩
      · cases same
        rcases again with absurd | absurd <;> cases absurd
      · cases above with
        | nil => cases isStack
        | cons first above =>
          cases isStack
          exact .inr (.inl ⟨above, rfl⟩)
      · cases empty
  | @enter path v rest next fresh among all =>
    have isReached := h.reached (.inr List.mem_cons_self)
    have seen_iff : ∀ {w}, State.Seen ⟨path, next.map Visit.enter ++ .exit v :: rest⟩ w ↔
        w = v ∨ State.Seen ⟨path, rest⟩ w := by
      intro w
      simp only [State.Seen, List.mem_append, List.mem_map, reduceCtorEq, and_false, exists_false,
        false_or, List.mem_cons, Visit.exit.injEq]
      tauto
    refine ⟨?_, ?_, ?_,
      hung_enters (fun w member => among.subset member) ⟨h.hung.1, h.hung.2⟩, ?_, ?_⟩
    · rintro w (left | waits)
      · exact h.reached (.inl left)
      · simp only [List.map_append, List.map_map, List.map_cons, List.mem_append,
          List.mem_cons] at waits
        rcases waits with isNext | same | waits
        · obtain ⟨x, member, rfl⟩ := List.mem_map.mp isNext
          exact isReached.tail (among.subset member)
        · rw [show w = v from same]
          exact isReached
        · exact h.reached (.inr (List.mem_cons_of_mem _ waits))
    · intro w seen x edge
      rw [seen_iff] at seen ⊢
      rcases seen with rfl | seen
      · rcases all x edge with same | known | isNext
        · exact .inl (.inl same)
        · exact .inl (.inr known)
        · exact .inr (List.mem_append_left _ (List.mem_map_of_mem isNext))
      · rcases h.closed (seen.imp_right (List.mem_cons_of_mem _)) x edge with known | waits
        · exact .inl (.inr (known.imp_right fun member => by simpa using member))
        · rcases List.mem_cons.mp waits with same | waits
          · cases same
            exact .inl (.inl rfl)
          · exact .inr (List.mem_append_right _ (List.mem_cons_of_mem _ waits))
    · rw [List.filterMap_append, exiting_enters, List.nil_append]
      refine (List.perm_middle.nodup_iff).mpr (List.nodup_cons.mpr ⟨fun member => ?_, h.nodup⟩)
      exact fresh ((List.mem_append.mp member).imp_right mem_exiting.mp)
    · intro w member
      refine (h.earlier w member).imp_right ?_
      rintro ⟨p, edge, waits⟩
      refine ⟨p, edge, waits.imp_left fun member => ?_⟩
      exact List.mem_append_right _ (List.mem_cons_of_mem _ (by simpa using member))
    · rcases h.bottom with same | ⟨above, isStack⟩ | ⟨empty, -⟩
      · cases same
        exact .inr (.inl ⟨_, rfl⟩)
      · cases above with
        | nil => cases isStack
        | cons first above =>
          cases isStack
          exact .inr (.inl ⟨next.map Visit.enter ++ .exit v :: above, by simp⟩)
      · cases empty
  | @exit path v rest =>
    have seen_iff : ∀ {w}, State.Seen ⟨v :: path, rest⟩ w ↔
        State.Seen ⟨path, .exit v :: rest⟩ w := by
      intro w
      simp only [State.Seen, List.mem_cons, Visit.exit.injEq]
      tauto
    refine ⟨?_, ?_, ?_, h.hung.2, ?_, ?_⟩
    · rintro w (left | waits)
      · rcases List.mem_cons.mp left with rfl | left
        · exact h.reached (.inr List.mem_cons_self)
        · exact h.reached (.inl left)
      · exact h.reached (.inr (List.mem_cons_of_mem _ waits))
    · intro w seen x edge
      rw [seen_iff] at seen ⊢
      exact (h.closed seen x edge).imp_right fun waits => by simpa using waits
    · exact (List.perm_middle.nodup_iff).mp h.nodup
    · intro w member
      rcases List.mem_cons.mp member with rfl | member
      · refine h.hung.1.imp_right ?_
        rintro ⟨p, waits, edge⟩
        exact ⟨p, edge, .inl waits⟩
      · refine (h.earlier w member).imp_right ?_
        rintro ⟨p, edge, waits | before⟩
        · rcases List.mem_cons.mp waits with same | waits
          · cases same
            obtain ⟨front, back, rfl⟩ := List.append_of_mem member
            exact ⟨v, edge, .inr ⟨v :: front, back, rfl, List.mem_cons_self⟩⟩
          · exact ⟨p, edge, .inl waits⟩
        · exact ⟨p, edge, .inr (before.cons v)⟩
    · rcases h.bottom with same | ⟨above, isStack⟩ | ⟨empty, -⟩
      · cases same
      · cases above with
        | nil =>
          cases isStack
          exact .inr (.inr ⟨rfl, rfl⟩)
        | cons first above =>
          cases isStack
          exact .inr (.inl ⟨above, rfl⟩)
      · cases empty

/-- What a search that has come to an end has found. -/
theorem finished [DecidableEq α] (h : Searching succ root s) (empty : s.stack = []) :
    (∀ v, Reachable (fun p v => v ∈ succ p) root v ↔ v ∈ s.path) ∧ s.path.Nodup ∧
      s.path.head? = some root ∧
      ∀ v ∈ s.path, v ≠ root → ∃ p, v ∈ succ p ∧ s.path.idxOf p < s.path.idxOf v := by
  have isRoot : s.path.head? = some root := by
    rcases h.bottom with rfl | ⟨above, isStack⟩ | ⟨-, head⟩
    · cases empty
    · simp [empty] at isStack
    · exact head
  have nodup : s.path.Nodup := by
    have := h.nodup
    rwa [empty, List.filterMap_nil, List.append_nil] at this
  have seen_iff : ∀ {v}, s.Seen v ↔ v ∈ s.path := by simp [State.Seen, empty]
  refine ⟨fun v => ⟨fun reached => ?_, fun member => h.reached (.inl member)⟩, nodup, isRoot, ?_⟩
  · induction reached with
    | refl => exact List.mem_of_mem_head? isRoot
    | tail _ edge ih =>
      have := h.closed (seen_iff.mpr ih) _ edge
      simpa [empty, seen_iff] using this
  · intro v member notRoot
    obtain ⟨p, edge, waits | before⟩ := (h.earlier v member).resolve_left notRoot
    · simp [empty] at waits
    · exact ⟨p, edge, before.idxOf_lt nodup⟩

end Searching

/-! ## The search ends -/

section Weight

variable [DecidableEq α] (succ) (nodes : List α)

instance (s : State α) (v : α) : Decidable (s.Seen v) :=
  inferInstanceAs (Decidable (v ∈ s.path ∨ .exit v ∈ s.stack))

/-- The turns that can still be taken. -/
def weight (s : State α) : Nat :=
  (nodes.map fun v => if s.Seen v then 0 else (succ v).length + 2).sum + s.stack.length

variable {succ nodes}

variable (nodes) in
omit [DecidableEq α] in
theorem sum_map_add_le {f g : α → Nat} {v : α} {c : Nat} (member : v ∈ nodes)
    (le : ∀ w, f w ≤ g w) (less : f v + c ≤ g v) : (nodes.map f).sum + c ≤ (nodes.map g).sum := by
  obtain ⟨front, back, rfl⟩ := List.append_of_mem member
  have first : (front.map f).sum ≤ (front.map g).sum := List.sum_le_sum fun w _ => le w
  have last : (back.map f).sum ≤ (back.map g).sum := List.sum_le_sum fun w _ => le w
  simp only [List.map_append, List.map_cons, List.sum_append, List.sum_cons]
  omega

theorem weight_congr (same : ∀ v, s.Seen v ↔ s'.Seen v) (less : s'.stack.length < s.stack.length) :
    weight succ nodes s' < weight succ nodes s := by
  simp only [weight, same]
  omega

/-- A turn leaves fewer turns. -/
theorem Step.weight_lt (stepped : Step succ s s') (known : ∀ v, .enter v ∈ s.stack → v ∈ nodes) :
    weight succ nodes s' < weight succ nodes s := by
  cases stepped with
  | @skip path v rest again =>
    refine weight_congr (fun w => ?_) (Nat.lt_succ_self _)
    simp [State.Seen]
  | @enter path v rest next fresh among all =>
    have le := among.length_le
    have seen : State.Seen ⟨path, next.map Visit.enter ++ .exit v :: rest⟩ v :=
      .inr (List.mem_append_right _ List.mem_cons_self)
    have unseen : ¬ State.Seen ⟨path, .enter v :: rest⟩ v := by
      simpa [State.Seen] using fresh
    have sums := sum_map_add_le nodes (c := (succ v).length + 2)
      (f := fun w => if State.Seen ⟨path, next.map Visit.enter ++ .exit v :: rest⟩ w then 0
        else (succ w).length + 2)
      (g := fun w => if State.Seen ⟨path, .enter v :: rest⟩ w then 0 else (succ w).length + 2)
      (known v List.mem_cons_self) (fun w => ?_) ?_
    · simp only [weight, List.length_append, List.length_map, List.length_cons]
      omega
    · by_cases before : State.Seen ⟨path, .enter v :: rest⟩ w
      · have after : State.Seen ⟨path, next.map Visit.enter ++ .exit v :: rest⟩ w := by
          refine before.imp_right fun member =>
            List.mem_append_right _ (List.mem_cons_of_mem _ ?_)
          simpa using member
        rw [if_pos after]
        exact Nat.zero_le _
      · rw [if_neg before]
        split
        · exact Nat.zero_le _
        · exact le_refl _
    · simp only [if_pos seen, if_neg unseen, Nat.zero_add, le_refl]
  | @exit path v rest =>
    refine weight_congr (fun w => ?_) (Nat.lt_succ_self _)
    simp only [State.Seen, List.mem_cons, Visit.exit.injEq]
    tauto

end Weight

end AnonCompiler.Lib.DepthFirst
