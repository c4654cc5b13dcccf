import AnonCompiler.Lib.Dominance

/-!
# Immediate dominators by iteration

A table gives to every node a node closer to the root, and is corrected in rounds:
the new entry of a node is found by climbing from all its predecessors until they
meet, always from the node with the larger key (`climb`).  The nodes are taken in
an order in which each has a predecessor before it.

What two climbs from different nodes can meet in are the records of a node: the
nodes on its way to the root whose key is smaller than all keys before them
(`Record`).  A round makes the set of records of a node smaller or leaves it
(`Invariant.step`), whatever the keys are, so the iteration ends.  In a table that
no round changes the records of a node are the dominators of which it is clear by
the keys that they come before all nodes in between (`record_iff_clear`), and the
entry of a node is its immediate dominator exactly when that one is clear
(`immediate_iff`).  Where the keys ascend in the order of the nodes all dominators
are (`clear_iff_dominates`).
-/

set_option autoImplicit false

namespace AnonCompiler.Lib

section Immediate

variable {α : Type} (edge : α → α → Prop) (root : α)

/-- The strict dominator that is dominated by every other strict dominator. -/
structure ImmediateDominator (d v : α) : Prop where
  strict : d ≠ v
  dominates : Dominates edge root d v
  nearest : ∀ {e}, e ≠ v → Dominates edge root e v → Dominates edge root e d

/-- All nodes that are passed on a way from `x` to `v`, after `x`, have larger keys. -/
def Clear (key : α → Nat) (x v : α) : Prop :=
  Dominates edge root x v ∧
    ∀ y, Reachable edge root y → ReachAvoiding edge x y v → key x < key y

end Immediate

namespace IterativeDominators

variable {α : Type}

abbrev Table (α : Type) := α → Option α

/-- Climb from the node with the larger key until both are the same. -/
def climb [DecidableEq α] (key : α → Nat) (table : Table α) : Nat → α → α → Option α
  | 0, _, _ => none
  | fuel + 1, p, q =>
    if p = q then some p
    else if key q < key p then (table p).bind fun up => climb key table fuel up q
    else if key p < key q then (table q).bind fun up => climb key table fuel p up
    else none

/-- The nodes on the way from `v` to the root with keys smaller than all keys before. -/
inductive Record (key : α → Nat) (root : α) (table : Table α) : α → α → Prop
  | self (v : α) : Record key root table v v
  | up {v u x : α} (notRoot : v ≠ root) (parent : table v = some u)
      (above : Record key root table u x) (lower : key x < key v) : Record key root table v x

/-- The order of the nodes.  `up v` is a predecessor of `v` that comes before it. -/
structure Listing (preds : α → List α) (root : α) (rest : List α) (rank : α → Nat) (up : α → α) :
    Prop where
  ascending : (root :: rest).Pairwise fun u v => rank u < rank v
  closed : ∀ {v p}, v ∈ root :: rest → p ∈ preds v → p ∈ root :: rest
  top : up root = root
  up_mem : ∀ {v}, v ∈ rest → up v ∈ preds v ∧ rank (up v) < rank v

/-- The entry that a round gives to `v`. -/
def Meet (key : α → Nat) (root : α) (preds : α → List α) (table : Table α) (v m : α) : Prop :=
  ∀ x, Record key root table m x ↔
    ∀ p ∈ preds v, (table p).isSome → Record key root table p x

/-- The nodes of rank less than `pos` have been visited in this round. -/
structure Invariant (key : α → Nat) (preds : α → List α) (root : α) (rest : List α)
    (rank : α → Nat) (up : α → α) (pos : Nat) (table : Table α) : Prop where
  atRoot : table root = some root
  node : ∀ {v}, (table v).isSome → v ∈ root :: rest
  parent : ∀ {v u}, v ≠ root → table v = some u →
    rank u < rank v ∧ (table u).isSome ∧ Above up u (up v)
  down : ∀ {v u}, (table v).isSome → u ∈ root :: rest → rank u < rank v → (table u).isSome
  visited : ∀ {v}, v ∈ rest → rank v < pos → (table v).isSome
  forward : ∀ {v u}, v ∈ rest → rank v < pos → table v = some u →
    ∀ x, Record key root table u x → Record key root table (up v) x
  keeps : ∀ {v u}, v ≠ root → table v = some u → ∀ x,
    (∀ p ∈ preds v, (table p).isSome → Record key root table p x) →
    (∀ z, Above up z (up v) → Above up x z → Record key root table z x) →
    Record key root table u x

theorem mem_rest {root v : α} {rest : List α} (member : v ∈ root :: rest) (notRoot : v ≠ root) :
    v ∈ rest := (List.mem_cons.mp member).resolve_left notRoot

section Order

variable {preds : α → List α} {root : α} [DecidableEq α] {order : List α}

omit [DecidableEq α] in
theorem order_eq_cons (isRoot : order.head? = some root) : order = root :: order.tail := by
  obtain ⟨rest, same⟩ := List.head?_eq_some_iff.mp isRoot
  rw [same, List.tail_cons]

omit [DecidableEq α] in
theorem root_notMem_tail (isRoot : order.head? = some root) (nodup : order.Nodup) :
    root ∉ order.tail := by
  rw [order_eq_cons isRoot] at nodup
  exact (List.nodup_cons.mp nodup).1

/-- The positions in a list of the nodes are their ranks. -/
theorem exists_listing (isRoot : order.head? = some root) (nodup : order.Nodup)
    (closed : ∀ v ∈ order, ∀ p ∈ preds v, p ∈ order)
    (earlier : ∀ v ∈ order, v ≠ root → ∃ p ∈ preds v, order.idxOf p < order.idxOf v) :
    ∃ up, Listing preds root order.tail order.idxOf up := by
  have isCons := order_eq_cons isRoot
  have notRoot : ∀ {v}, v ∈ order.tail → v ≠ root := fun member same =>
    root_notMem_tail isRoot nodup (same ▸ member)
  have above : ∀ v, ∃ p, v ∈ order.tail → p ∈ preds v ∧ order.idxOf p < order.idxOf v := by
    intro v
    by_cases member : v ∈ order.tail
    · obtain ⟨p, isPred, lt⟩ := earlier v (List.mem_of_mem_tail member) (notRoot member)
      exact ⟨p, fun _ => ⟨isPred, lt⟩⟩
    · exact ⟨root, fun absurd => (member absurd).elim⟩
  choose up isUp using above
  refine ⟨fun v => if v = root then root else up v, ?_, ?_, if_pos rfl, ?_⟩
  · rw [← isCons]
    apply List.pairwise_iff_getElem.mpr
    intro i j hi hj lt
    rw [nodup.idxOf_getElem, nodup.idxOf_getElem]
    exact lt
  · rw [← isCons]
    exact fun {v} {p} member isPred => closed v member p isPred
  · intro v member
    rw [if_neg (notRoot member)]
    exact isUp v member

end Order

section Listing

variable {preds : α → List α} {root : α} {rest : List α} {rank : α → Nat} {up : α → α}
  (listing : Listing preds root rest rank up) {u v w x z : α}

include listing

theorem Listing.root_lt (member : v ∈ rest) : rank root < rank v :=
  (List.pairwise_cons.mp listing.ascending).1 v member

theorem Listing.root_notMem : root ∉ rest := fun member => (listing.root_lt member).ne rfl

theorem Listing.rank_inj (first : u ∈ root :: rest) (second : v ∈ root :: rest)
    (same : rank u = rank v) : u = v := by
  have apart : ((root :: rest).map rank).Nodup :=
    List.pairwise_map.mpr (listing.ascending.imp fun lt => lt.ne)
  exact List.inj_on_of_nodup_map apart first second same

section

variable (member : v ∈ root :: rest)
include member

theorem Listing.up_node : up v ∈ root :: rest := by
  by_cases isRoot : v = root
  · rw [isRoot, listing.top]
    exact List.mem_cons_self
  · exact listing.closed member (listing.up_mem (mem_rest member isRoot)).1

theorem Listing.above_node (above : Above up u v) : u ∈ root :: rest := by
  induction above with
  | refl => exact member
  | tail _ step ih =>
    rw [step]
    exact listing.up_node ih

theorem Listing.above_rank (above : Above up u v) : u = v ∨ rank u < rank v := by
  induction above with
  | refl => exact .inl rfl
  | @tail y z before step ih =>
    subst step
    have known := listing.above_node member before
    by_cases isRoot : y = root
    · subst isRoot
      rw [listing.top]
      exact ih
    · have lt := (listing.up_mem (mem_rest known isRoot)).2
      rcases ih with rfl | ih
      · exact .inr lt
      · exact .inr (lt.trans ih)

/-- What is handed on from a node to the one above it, unless the node is `x`, is handed on to the
nodes down to `x`. -/
theorem Listing.descend {P : α → Prop} (above : Above up z v) (aboveX : Above up x z)
    (step : ∀ y ∈ rest, Above up y v → y ≠ x → P y → P (up y)) (start : P v) : P z := by
  induction above with
  | refl => exact start
  | @tail y z before isUp ih =>
    subst isUp
    have known := listing.above_node member before
    have holds := ih (aboveX.trans (parent_above y))
    by_cases isRoot : y = root
    · subst isRoot
      rw [listing.top]
      exact holds
    · have inRest := mem_rest known isRoot
      refine step y inRest before ?_ holds
      rintro rfl
      rcases listing.above_rank (listing.up_node known) aboveX with same | lt
      · exact (listing.up_mem inRest).2.ne (congrArg rank same.symm)
      · exact absurd (listing.up_mem inRest).2 lt.not_gt

end

section

variable (member : v ∈ root :: rest)
include member

theorem Listing.reachable : Reachable (fun p v => p ∈ preds v) root v := by
  induction below : rank v using Nat.strong_induction_on generalizing v with
  | _ n ih =>
    by_cases isRoot : v = root
    · rw [isRoot]
      exact Relation.ReflTransGen.refl
    · obtain ⟨isPred, lt⟩ := listing.up_mem (mem_rest member isRoot)
      exact (ih _ (below ▸ lt) (listing.up_node member) rfl).tail isPred

theorem Listing.dominator_above (dominates : Dominates (fun p v => p ∈ preds v) root u v) :
    Above up u v := by
  induction below : rank v using Nat.strong_induction_on generalizing v with
  | _ n ih =>
    by_cases same : v = u
    · rw [same]
      exact .refl u
    · by_cases isRoot : v = root
      · subst isRoot
        rw [dominates.eq_root]
        exact .refl _
      · obtain ⟨isPred, lt⟩ := listing.up_mem (mem_rest member isRoot)
        exact (ih _ (below ▸ lt) (listing.up_node member) (dominates.pred same isPred) rfl).trans
          (parent_above v)

theorem Listing.dominator_rank (dominates : Dominates (fun p v => p ∈ preds v) root u v) :
    u = v ∨ rank u < rank v :=
  listing.above_rank member (listing.dominator_above member dominates)

theorem Listing.dominates_antisymm (first : Dominates (fun p v => p ∈ preds v) root u v)
    (second : Dominates (fun p v => p ∈ preds v) root v u) : u = v := by
  rcases listing.dominator_rank member first with same | lt
  · exact same
  · have known := listing.above_node member (listing.dominator_above member first)
    rcases listing.dominator_rank known second with same | lt'
    · exact same.symm
    · exact absurd lt lt'.not_gt

end

theorem Listing.node_of_path {r : α → α → Prop} (member : v ∈ root :: rest)
    (path : Relation.ReflTransGen (fun p v => p ∈ preds v ∧ r p v) u v) : u ∈ root :: rest := by
  induction path with
  | refl => exact member
  | tail _ step ih => exact ih (listing.closed member step.1)

/-- What stands before a node in the list, and what its rank says of it. -/
theorem Listing.split {before nodes : List α} (isRest : rest = before ++ v :: nodes) :
    v ∈ rest ∧ (∀ {w}, w ∈ rest → rank w < rank v → w ∈ before) ∧
      ∀ w ∈ before ++ [v], rank w < rank v + 1 := by
  have ascending := (List.pairwise_cons.mp listing.ascending).2
  rw [isRest] at ascending
  obtain ⟨-, later, apart⟩ := List.pairwise_append.mp ascending
  refine ⟨?_, ?_, ?_⟩
  · rw [isRest]
    exact List.mem_append_right _ List.mem_cons_self
  · intro w member lt
    rw [isRest] at member
    rcases List.mem_append.mp member with earlier | member
    · exact earlier
    · rcases List.mem_cons.mp member with rfl | member
      · exact absurd lt (lt_irrefl _)
      · exact absurd lt ((List.pairwise_cons.mp later).1 w member).not_gt
  · intro w member
    rcases List.mem_append.mp member with earlier | member
    · exact (apart w earlier v List.mem_cons_self).trans (Nat.lt_succ_self _)
    · rw [List.mem_singleton.mp member]
      exact Nat.lt_succ_self _

end Listing

/-! ## Records -/

section Record

variable {key : α → Nat} {root : α} {table : Table α} {u v w x : α}

theorem Record.key_le (h : Record key root table v x) : x = v ∨ key x < key v := by
  cases h with
  | self => exact .inl rfl
  | up _ _ _ lower => exact .inr lower

theorem Record.eq_root (h : Record key root table root x) : x = root := by
  cases h with
  | self => rfl
  | up notRoot => exact absurd rfl notRoot

/-- The records of a node, itself apart, are records of its entry. -/
theorem Record.parent (h : Record key root table v x) (differ : x ≠ v)
    (isParent : table v = some u) : Record key root table u x := by
  cases h with
  | self => exact absurd rfl differ
  | up _ isParent' above _ =>
    rw [isParent] at isParent'
    cases isParent'
    exact above

end Record

section Step

variable {key : α → Nat} {preds : α → List α} {root : α} {rest : List α} {rank : α → Nat}
  {up : α → α} {pos : Nat} {table : Table α} {u v w x m p q : α}

section

variable (h : Invariant key preds root rest rank up pos table)
include h

theorem Invariant.record_spec (record : Record key root table v x) (isSet : (table v).isSome) :
    (table x).isSome ∧ Above up x v := by
  induction record with
  | self => exact ⟨isSet, .refl _⟩
  | @up v u x notRoot parent _ _ ih =>
    obtain ⟨-, set, above⟩ := h.parent notRoot parent
    obtain ⟨setX, aboveX⟩ := ih set
    exact ⟨setX, (aboveX.trans above).trans (parent_above v)⟩

/-- A round starts. -/
theorem Invariant.restart : Invariant key preds root rest rank up 0 table :=
  { h with
    visited := fun _ lt => absurd lt (Nat.not_lt_zero _)
    forward := fun _ lt => absurd lt (Nat.not_lt_zero _) }

/-- No node is passed over. -/
theorem Invariant.advance {pos' : Nat} (same : ∀ v ∈ rest, rank v < pos' → rank v < pos) :
    Invariant key preds root rest rank up pos' table :=
  { h with
    visited := fun member lt => h.visited member (same _ member lt)
    forward := fun member lt => h.forward member (same _ member lt) }

end

variable (listing : Listing preds root rest rank up)

include listing in
/-- The node above the next one has an entry. -/
theorem Invariant.up_set (h : Invariant key preds root rest rank up (rank v) table)
    (member : v ∈ rest) : (table (up v)).isSome := by
  obtain ⟨-, lt⟩ := listing.up_mem member
  by_cases isRoot : up v = root
  · rw [isRoot, h.atRoot]
    rfl
  · exact h.visited (mem_rest (listing.up_node (List.mem_cons_of_mem _ member)) isRoot) lt

include listing in
/-- What all predecessors have in common was a record before. -/
theorem Invariant.meet_parent (h : Invariant key preds root rest rank up (rank v) table)
    (member : v ∈ rest) (parent : table v = some u)
    (common : ∀ p ∈ preds v, (table p).isSome → Record key root table p x) :
    Record key root table u x := by
  have notRoot : v ≠ root := fun same => listing.root_notMem (same ▸ member)
  have known : v ∈ root :: rest := List.mem_cons_of_mem _ member
  refine h.keeps notRoot parent x common fun z above aboveX => ?_
  refine listing.descend (P := fun y => Record key root table y x) (listing.up_node known) above
    aboveX ?_ (common _ (listing.up_mem member).1 (h.up_set listing member))
  intro y inRest aboveY differ record
  have lt : rank y < rank v := by
    rcases listing.above_rank (listing.up_node known) aboveY with rfl | lt
    · exact (listing.up_mem member).2
    · exact lt.trans (listing.up_mem member).2
  obtain ⟨u', parent'⟩ := Option.isSome_iff_exists.mp (h.visited inRest lt)
  exact h.forward inRest lt parent' x (record.parent (Ne.symm differ) parent')

section Update

variable [DecidableEq α]

/-- A record that is lost was lost at the node whose entry has changed. -/
theorem Invariant.record_update (h : Invariant key preds root rest rank up pos table)
    (record : Record key root table w x) (isSet : (table w).isSome)
    (kept : Above up v w → Above up x v → x ≠ v → Record key root table v x →
      Record key root (Function.update table v (some m)) v x) :
    Record key root (Function.update table v (some m)) w x := by
  induction record with
  | self => exact .self _
  | @up w u x notRoot parent above lower ih =>
    obtain ⟨-, set, aboveU⟩ := h.parent notRoot parent
    have aboveW := aboveU.trans (parent_above w)
    have whole : Record key root table w x := .up notRoot parent above lower
    by_cases same : w = v
    · subst same
      refine kept (.refl _) (h.record_spec whole isSet).2 ?_ whole
      rintro rfl
      exact lower.ne rfl
    · refine .up notRoot ((Function.update_of_ne same ..).trans parent) (ih set ?_) lower
      exact fun aboveV => kept (aboveV.trans aboveW)

/-- Where the changed entry gives no new records, there are none. -/
theorem Invariant.record_of_update (h : Invariant key preds root rest rank up pos table)
    (fewer : (table v).isSome → ∀ x, Record key root (Function.update table v (some m)) v x →
      Record key root table v x)
    (record : Record key root (Function.update table v (some m)) w x) (isSet : (table w).isSome) :
    Record key root table w x := by
  induction record with
  | self => exact .self _
  | @up w u x notRoot parent above lower ih =>
    by_cases same : w = v
    · subst same
      exact fewer isSet x (.up notRoot parent above lower)
    · rw [Function.update_of_ne same] at parent
      exact .up notRoot parent (ih (h.parent notRoot parent).2.1) lower

include listing in
/-- The nodes before the changed one keep their records. -/
theorem Invariant.record_before (h : Invariant key preds root rest rank up pos table)
    (isSet : (table w).isSome) (before : rank w < rank v) :
    Record key root (Function.update table v (some m)) w x ↔ Record key root table w x := by
  constructor
  · intro record
    induction record with
    | self => exact .self _
    | @up w u x notRoot parent above lower ih =>
      rw [Function.update_of_ne fun same => before.ne (congrArg rank same)] at parent
      obtain ⟨lt, set, -⟩ := h.parent notRoot parent
      exact .up notRoot parent (ih set (lt.trans before)) lower
  · intro record
    refine h.record_update record isSet fun above => ?_
    rcases listing.above_rank (h.node isSet) above with rfl | lt
    · exact absurd before (lt_irrefl _)
    · exact absurd before lt.not_gt

omit [DecidableEq α] in
include listing in
/-- What is met lies above `up v`. -/
theorem Invariant.meet_spec (h : Invariant key preds root rest rank up (rank v) table)
    (member : v ∈ rest) (meet : Meet key root preds table v m) :
    (table m).isSome ∧ Above up m (up v) ∧ rank m < rank v := by
  have isSet := h.up_set listing member
  obtain ⟨isPred, lt⟩ := listing.up_mem member
  obtain ⟨set, above⟩ := h.record_spec ((meet m).mp (.self m) _ isPred isSet) isSet
  refine ⟨set, above, ?_⟩
  rcases listing.above_rank (h.node isSet) above with rfl | lt'
  · exact lt
  · exact lt'.trans lt

omit [DecidableEq α] in
include listing in
/-- The entry of a node moves towards the root. -/
theorem Invariant.meet_record (h : Invariant key preds root rest rank up (rank v) table)
    (member : v ∈ rest) (meet : Meet key root preds table v m) (parent : table v = some u) :
    Record key root table u m :=
  h.meet_parent listing member parent ((meet m).mp (.self m))

include listing in
theorem Invariant.step (h : Invariant key preds root rest rank up (rank v) table)
    (member : v ∈ rest) (meet : Meet key root preds table v m) :
    Invariant key preds root rest rank up (rank v + 1) (Function.update table v (some m)) := by
  have notRoot : v ≠ root := fun same => listing.root_notMem (same ▸ member)
  have known : v ∈ root :: rest := List.mem_cons_of_mem _ member
  obtain ⟨isPred, upLt⟩ := listing.up_mem member
  have upSet := h.up_set listing member
  obtain ⟨setM, aboveM, ltM⟩ := h.meet_spec listing member meet
  have before : ∀ {w x}, (table w).isSome → rank w < rank v →
      (Record key root (Function.update table v (some m)) w x ↔ Record key root table w x) :=
    fun set lt => h.record_before listing set lt
  have atV : Function.update table v (some m) v = some m := Function.update_self ..
  have other : ∀ {w}, w ≠ v → Function.update table v (some m) w = table w :=
    fun differ => Function.update_of_ne differ ..
  have stillSet : ∀ {w}, (table w).isSome → (Function.update table v (some m) w).isSome := by
    intro w set
    by_cases same : w = v
    · rw [same, atV]
      rfl
    · rwa [other same]
  have fewer : (table v).isSome → ∀ x, Record key root (Function.update table v (some m)) v x →
      Record key root table v x := by
    intro set x record
    obtain ⟨u, parent⟩ := Option.isSome_iff_exists.mp set
    by_cases same : x = v
    · rw [same]
      exact .self v
    · have fromM := (before setM ltM).mp (record.parent same atV)
      exact .up notRoot parent (h.meet_parent listing member parent ((meet x).mp fromM))
        (record.key_le.resolve_left same)
  have back : ∀ {w x}, (table w).isSome →
      Record key root (Function.update table v (some m)) w x → Record key root table w x :=
    fun set record => h.record_of_update fewer record set
  refine ⟨(other notRoot.symm).trans h.atRoot, ?_, ?_, ?_, ?_, ?_, ?_⟩
  · intro w set
    by_cases same : w = v
    · rw [same]
      exact known
    · rw [other same] at set
      exact h.node set
  · intro w u notRoot' parent
    by_cases same : w = v
    · subst same
      rw [atV] at parent
      cases parent
      exact ⟨ltM, stillSet setM, aboveM⟩
    · rw [other same] at parent
      obtain ⟨lt, set, above⟩ := h.parent notRoot' parent
      exact ⟨lt, stillSet set, above⟩
  · intro w u set member' lt
    by_cases same : w = v
    · subst same
      by_cases isRoot : u = root
      · rw [isRoot, other notRoot.symm, h.atRoot]
        rfl
      · exact stillSet (h.visited (mem_rest member' isRoot) lt)
    · rw [other same] at set
      exact stillSet (h.down set member' lt)
  · intro w member' lt
    by_cases same : w = v
    · rw [same, atV]
      rfl
    · have apart : rank w ≠ rank v := fun equal =>
        same (listing.rank_inj (List.mem_cons_of_mem _ member') known equal)
      exact stillSet (h.visited member' (by omega))
  · intro w u member' lt parent x record
    by_cases same : w = v
    · subst same
      rw [atV] at parent
      cases parent
      exact (before upSet upLt).mpr ((meet x).mp ((before setM ltM).mp record) _ isPred upSet)
    · have apart : rank w ≠ rank v := fun equal =>
        same (listing.rank_inj (List.mem_cons_of_mem _ member') known equal)
      rw [other same] at parent
      have lt' : rank w < rank v := by omega
      have notRoot' : w ≠ root := fun equal => listing.root_notMem (equal ▸ member')
      obtain ⟨ltU, setU, -⟩ := h.parent notRoot' parent
      have upLt' := (listing.up_mem member').2
      have setUp := h.down (parent ▸ rfl)
        (listing.up_node (List.mem_cons_of_mem _ member')) upLt'
      exact (before setUp (upLt'.trans lt')).mpr (h.forward member' lt' parent x
        ((before setU (ltU.trans lt')).mp record))
  · intro w u notRoot' parent x common along
    by_cases same : w = v
    · subst same
      rw [atV] at parent
      cases parent
      exact (before setM ltM).mpr ((meet x).mpr fun p isPred set =>
        back set (common p isPred (stillSet set)))
    · rw [other same] at parent
      obtain ⟨-, setU, aboveU⟩ := h.parent notRoot' parent
      have inRest : w ∈ rest := mem_rest (h.node (by rw [parent]; rfl)) notRoot'
      have record : Record key root table u x := by
        refine h.keeps notRoot' parent x
          (fun p isPred set => back set (common p isPred (stillSet set))) ?_
        intro z above aboveX
        have upLt' := (listing.up_mem inRest).2
        have upKnown := listing.up_node (List.mem_cons_of_mem root inRest)
        have lt : rank z < rank w := by
          rcases listing.above_rank upKnown above with rfl | lt
          · exact upLt'
          · exact lt.trans upLt'
        have setZ := h.down (by rw [parent]; rfl) (listing.above_node upKnown above) lt
        exact back setZ (along z above aboveX)
      refine h.record_update record setU fun above aboveX _ _ => ?_
      exact along v (above.trans aboveU) aboveX

end Update

end Step

/-! ## Climbing -/

/-- No two nodes have the same key, and the root has the smallest. -/
structure Keyed (key : α → Nat) (root : α) (rest : List α) : Prop where
  inj : ∀ {u v}, u ∈ root :: rest → v ∈ root :: rest → key u = key v → u = v
  least : ∀ {v}, v ∈ rest → key root < key v

section Climb

variable {key : α → Nat} {preds : α → List α} {root : α} {rest : List α} {rank : α → Nat}
  {up : α → α} {pos : Nat} {table : Table α} {u v p q : α}

variable {fuel : Nat} {m first : α} {f : α → α → Option α} {others : List α}

theorem keyed_rank (listing : Listing preds root rest rank up) : Keyed rank root rest :=
  ⟨fun first second same => listing.rank_inj first second same,
    fun member => listing.root_lt member⟩

theorem Keyed.parent (keyed : Keyed key root rest)
    (h : Invariant key preds root rest rank up pos table) (setP : (table p).isSome)
    (setQ : (table q).isSome) (lt : key q < key p) :
    ∃ u, table p = some u ∧ (table u).isSome ∧ rank u < rank p ∧
      ∀ x, Record key root table u x ∧ Record key root table q x ↔
        Record key root table p x ∧ Record key root table q x := by
  obtain ⟨u, parent⟩ := Option.isSome_iff_exists.mp setP
  have notRoot : p ≠ root := by
    rintro rfl
    by_cases same : q = p
    · rw [same] at lt
      exact lt_irrefl _ lt
    · exact absurd lt (keyed.least (mem_rest (h.node setQ) same)).not_gt
  obtain ⟨ltU, setU, -⟩ := h.parent notRoot parent
  have below : ∀ {x}, Record key root table q x → key x < key p := by
    intro x record
    rcases record.key_le with rfl | lt'
    · exact lt
    · exact lt'.trans lt
  refine ⟨u, parent, setU, ltU, fun x => and_congr_left fun record =>
    ⟨fun above => ?_, fun above => ?_⟩⟩
  · exact .up notRoot parent above (below record)
  · refine above.parent ?_ parent
    rintro rfl
    exact lt_irrefl _ (below record)

variable [DecidableEq α]

/-- What two climbs have met in. -/
def Joins (key : α → Nat) (root : α) (table : Table α) (p q m : α) : Prop :=
  (table m).isSome ∧
    ∀ x, Record key root table m x ↔ Record key root table p x ∧ Record key root table q x

section

variable (keyed : Keyed key root rest) (h : Invariant key preds root rest rank up pos table)
  (setP : (table p).isSome) (setQ : (table q).isSome)
include keyed h setP setQ

/-- Climbing ends in the first of the common records. -/
theorem climb_joins (climbed : climb key table fuel p q = some m) : Joins key root table p q m := by
  induction fuel generalizing p q with
  | zero => cases climbed
  | succ fuel ih =>
    unfold climb at climbed
    split at climbed
    · next same =>
        cases climbed
        subst same
        exact ⟨setP, fun x => (and_self_iff).symm⟩
    · split at climbed
      · next lt =>
          obtain ⟨u, parent, setU, -, records⟩ := keyed.parent h setP setQ lt
          rw [parent] at climbed
          obtain ⟨setM, isMeet⟩ := ih setU setQ climbed
          exact ⟨setM, fun x => (isMeet x).trans (records x)⟩
      · split at climbed
        · next lt =>
            obtain ⟨u, parent, setU, -, records⟩ := keyed.parent h setQ setP lt
            rw [parent] at climbed
            obtain ⟨setM, isMeet⟩ := ih setP setU climbed
            refine ⟨setM, fun x => ?_⟩
            rw [isMeet x, and_comm, records x, and_comm]
        · cases climbed

theorem climb_total (enough : rank p + rank q < fuel) : (climb key table fuel p q).isSome := by
  induction fuel generalizing p q with
  | zero => exact absurd enough (Nat.not_lt_zero _)
  | succ fuel ih =>
    unfold climb
    by_cases same : p = q
    · rw [if_pos same]
      rfl
    · rw [if_neg same]
      rcases Nat.lt_trichotomy (key q) (key p) with lt | equal | lt
      · obtain ⟨u, parent, setU, ltU, -⟩ := keyed.parent h setP setQ lt
        rw [if_pos lt, parent]
        exact ih (p := u) setU setQ (by omega)
      · exact absurd (keyed.inj (h.node setQ) (h.node setP) equal).symm same
      · obtain ⟨u, parent, setU, ltU, -⟩ := keyed.parent h setQ setP lt
        rw [if_neg lt.not_gt, if_pos lt, parent]
        exact ih (q := u) setP setU (by omega)

end

omit [DecidableEq α]

section

variable
  (joins : ∀ {p q m}, (table p).isSome → (table q).isSome → f p q = some m →
    Joins key root table p q m)
include joins

/-- Climbing from one node after the other. -/
theorem foldlM_joins (set : ∀ p ∈ first :: others, (table p).isSome)
    (folded : others.foldlM f first = some m) (x : α) :
    Record key root table m x ↔ ∀ p ∈ first :: others, Record key root table p x := by
  induction others generalizing first with
  | nil =>
    obtain rfl : first = m := Option.some.inj folded
    simp
  | cons next others ih =>
    rw [List.foldlM_cons] at folded
    obtain ⟨both, isBoth, later⟩ := Option.bind_eq_some_iff.mp folded
    obtain ⟨setBoth, records⟩ := joins (set first List.mem_cons_self)
      (set next (List.mem_cons_of_mem _ List.mem_cons_self)) isBoth
    have setOthers : ∀ p ∈ both :: others, (table p).isSome := List.forall_mem_cons.mpr
      ⟨setBoth, fun p member => set p (List.mem_cons_of_mem _ (List.mem_cons_of_mem _ member))⟩
    rw [ih setOthers later]
    simp only [List.forall_mem_cons, records x, and_assoc]

theorem foldlM_total (total : ∀ {p q}, (table p).isSome → (table q).isSome → (f p q).isSome)
    (set : ∀ p ∈ first :: others, (table p).isSome) : (others.foldlM f first).isSome := by
  induction others generalizing first with
  | nil => rfl
  | cons next others ih =>
    have setFirst := set first List.mem_cons_self
    have setNext := set next (List.mem_cons_of_mem _ List.mem_cons_self)
    obtain ⟨both, isBoth⟩ := Option.isSome_iff_exists.mp (total setFirst setNext)
    rw [List.foldlM_cons, isBoth]
    exact ih (List.forall_mem_cons.mpr ⟨(joins setFirst setNext isBoth).1, fun p member =>
      set p (List.mem_cons_of_mem _ (List.mem_cons_of_mem _ member))⟩)

/-- Climbing from the predecessors that have entries. -/
theorem meet_of_foldlM (isList : (preds v).filter (fun p => (table p).isSome) = first :: others)
    (folded : others.foldlM f first = some m) : Meet key root preds table v m := by
  have members : ∀ p, p ∈ first :: others ↔ p ∈ preds v ∧ (table p).isSome := by
    intro p
    rw [← isList, List.mem_filter]
  intro x
  rw [foldlM_joins joins (fun p member => ((members p).mp member).2) folded]
  simp only [members, and_imp]

end

end Climb

/-! ## Rounds -/

section Rounds

variable {key : α → Nat} {preds : α → List α} {root : α} {rest : List α} {rank : α → Nat}
  {up : α → α} {table table' : Table α} {u v m x : α} [DecidableEq α]

/-- The entries of the nodes in a list are found anew; the flag says whether one has changed. -/
inductive Pass (key : α → Nat) (root : α) (preds : α → List α) :
    List α → Table α → Table α → Bool → Prop
  | nil (table : Table α) : Pass key root preds [] table table false
  | keep {v m : α} {nodes : List α} {table table' : Table α} {changed : Bool}
      (meet : Meet key root preds table v m) (same : table v = some m)
      (later : Pass key root preds nodes table table' changed) :
      Pass key root preds (v :: nodes) table table' changed
  | change {v m : α} {nodes : List α} {table table' : Table α} {changed : Bool}
      (meet : Meet key root preds table v m) (differs : table v ≠ some m)
      (later : Pass key root preds nodes (Function.update table v (some m)) table' changed) :
      Pass key root preds (v :: nodes) table table' true

/-- No round changes an entry. -/
def Settled (key : α → Nat) (root : α) (preds : α → List α) (rest : List α)
    (table : Table α) : Prop :=
  ∀ v ∈ rest, ∃ m, table v = some m ∧ Meet key root preds table v m

/-- How far the entries are from the root; a missing one is farther than any other. -/
def weight (rank : α → Nat) (rest : List α) (table : Table α) : Nat :=
  (rest.map fun v => ((table v).map rank).getD (rest.map rank).sum).sum

/-- What is known of a node that has been found, is known of the nodes below. -/
def Covers (key : α → Nat) (root : α) (Q : α → α → Prop) (table : Table α) : Prop :=
  ∀ v x, (table v).isSome → Q x v → Record key root table v x

variable (listing : Listing preds root rest rank up)

variable {Q : α → α → Prop}

include listing in
theorem Invariant.covers_step
    (handed : ∀ {x v}, v ∈ root :: rest → Q x v → x ≠ v → v ≠ root ∧ key x < key v ∧
    ∀ p ∈ preds v, Q x p)
    (h : Invariant key preds root rest rank up (rank v) table) (member : v ∈ rest)
    (meet : Meet key root preds table v m) (covers : Covers key root Q table) :
    Covers key root Q (Function.update table v (some m)) := by
  have notRoot : v ≠ root := fun same => listing.root_notMem (same ▸ member)
  obtain ⟨setM, -, ltM⟩ := h.meet_spec listing member meet
  have atV : ∀ {x}, Q x v → Record key root (Function.update table v (some m)) v x := by
    intro x holds
    by_cases same : x = v
    · rw [same]
      exact .self v
    · obtain ⟨-, lower, onPreds⟩ := handed (List.mem_cons_of_mem _ member) holds same
      refine .up notRoot (Function.update_self ..) ?_ lower
      exact (h.record_before listing setM ltM).mpr
        ((meet x).mpr fun p isPred set => covers p x set (onPreds p isPred))
  intro w x set holds
  by_cases same : w = v
  · rw [same] at holds ⊢
    exact atV holds
  · rw [Function.update_of_ne same] at set
    refine h.record_update (covers w x set holds) set fun above aboveX _ _ => atV ?_
    refine listing.descend (P := fun y => Q x y) (h.node set) above aboveX ?_ holds
    intro y inRest _ differ holds'
    exact (handed (List.mem_cons_of_mem _ inRest) holds' differ.symm).2.2 _
      (listing.up_mem inRest).1

include listing in
theorem Invariant.weight_update (h : Invariant key preds root rest rank up (rank v) table)
    (member : v ∈ rest) (meet : Meet key root preds table v m) (differs : table v ≠ some m) :
    weight rank rest (Function.update table v (some m)) < weight rank rest table := by
  obtain ⟨setM, -, ltM⟩ := h.meet_spec listing member meet
  have lower : rank m < ((table v).map rank).getD (rest.map rank).sum := by
    cases parent : table v with
    | none => exact ltM.trans_le (List.le_sum_of_mem (List.mem_map_of_mem member))
    | some u =>
      have notRoot : v ≠ root := fun same => listing.root_notMem (same ▸ member)
      obtain ⟨-, setU, -⟩ := h.parent notRoot parent
      have above := (h.record_spec (h.meet_record listing member meet parent) setU).2
      rcases listing.above_rank (h.node setU) above with rfl | lt
      · exact absurd parent differs
      · exact lt
  apply List.sum_lt_sum
  · intro w _
    by_cases same : w = v
    · subst same
      rw [Function.update_self]
      exact lower.le
    · rw [Function.update_of_ne same]
  · refine ⟨v, member, ?_⟩
    rw [Function.update_self]
    exact lower

omit [DecidableEq α] in
include listing in
/-- The next node of a round. -/
theorem Invariant.next {nodes before : List α} {pos : Nat} (isRest : rest = before ++ v :: nodes)
    (early : ∀ w ∈ before, rank w < pos) (h : Invariant key preds root rest rank up pos table) :
    v ∈ rest ∧ Invariant key preds root rest rank up (rank v) table ∧
      ∀ w ∈ before ++ [v], rank w < rank v + 1 := by
  obtain ⟨member, between, soon⟩ := listing.split isRest
  exact ⟨member, h.advance fun w inRest lt => early w (between inRest lt), soon⟩

include listing in
/-- A round keeps the invariant, and if it changes an entry, entries move towards the root. -/
theorem Invariant.pass
    (handed : ∀ {x v}, v ∈ root :: rest → Q x v → x ≠ v → v ≠ root ∧ key x < key v ∧
    ∀ p ∈ preds v, Q x p)
    {nodes before : List α} {changed : Bool} {pos : Nat} (isRest : rest = before ++ nodes)
    (early : ∀ w ∈ before, rank w < pos) (h : Invariant key preds root rest rank up pos table)
    (covers : Covers key root Q table) (pass : Pass key root preds nodes table table' changed) :
    Invariant key preds root rest rank up 0 table' ∧ Covers key root Q table' ∧
      (changed = true → weight rank rest table' < weight rank rest table) ∧
      (changed = false → table' = table ∧
        ∀ v ∈ nodes, ∃ m, table v = some m ∧ Meet key root preds table v m) := by
  induction pass generalizing before pos with
  | nil table =>
    exact ⟨h.restart, covers, nofun, fun _ =>
      ⟨rfl, fun _ member => absurd member List.not_mem_nil⟩⟩
  | @keep v m nodes table table' changed meet same later ih =>
    obtain ⟨member, h, soon⟩ := h.next listing isRest early
    have stepped := h.step listing member meet
    rw [← same, Function.update_eq_self] at stepped
    obtain ⟨inv, covered, less, equal⟩ :=
      ih (by rw [isRest, List.append_cons]) soon stepped covers
    refine ⟨inv, covered, less, fun unchanged => ?_⟩
    obtain ⟨isTable, settled⟩ := equal unchanged
    exact ⟨isTable, List.forall_mem_cons.mpr ⟨⟨m, same, meet⟩, settled⟩⟩
  | @change v m nodes table table' changed meet differs later ih =>
    obtain ⟨member, h, soon⟩ := h.next listing isRest early
    obtain ⟨inv, covered, less, equal⟩ := ih (by rw [isRest, List.append_cons]) soon
      (h.step listing member meet) (h.covers_step listing handed member meet covers)
    have lower := h.weight_update listing member meet differs
    refine ⟨inv, covered, fun _ => ?_, nofun⟩
    cases changed with
    | false => exact (equal rfl).1 ▸ lower
    | true => exact (less rfl).trans lower

end Rounds

/-! ## The beginning and the end -/

/-- What the iteration leaves. -/
structure Solution (key : α → Nat) (preds : α → List α) (root : α) (rest : List α) (rank : α → Nat)
    (up : α → α) (table : Table α) : Prop where
  invariant : Invariant key preds root rest rank up 0 table
  covers : Covers key root (Clear (fun p v => p ∈ preds v) root key) table
  settled : Settled key root preds rest table

section Result

variable {key : α → Nat} {preds : α → List α} {root : α} {rest : List α} {rank : α → Nat}
  {up : α → α} {table : Table α} {d u v m x : α}

/-- Only the root has an entry, itself. -/
structure Initial (root : α) (table : Table α) : Prop where
  atRoot : table root = some root
  other : ∀ {v}, v ≠ root → table v = none

theorem Initial.isSome (initial : Initial root table) (set : (table v).isSome) : v = root := by
  by_contra differs
  rw [initial.other differs] at set
  cases set

theorem Initial.invariant (initial : Initial root table)
    (listing : Listing preds root rest rank up) :
    Invariant key preds root rest rank up 0 table where
  atRoot := initial.atRoot
  node := fun set => initial.isSome set ▸ List.mem_cons_self
  parent := fun notRoot parent => absurd (initial.isSome (by rw [parent]; rfl)) notRoot
  down := by
    intro v u set member lt
    rw [initial.isSome set] at lt
    rcases List.mem_cons.mp member with rfl | member
    · exact absurd lt (lt_irrefl _)
    · exact absurd lt (listing.root_lt member).not_gt
  visited := fun _ lt => absurd lt (Nat.not_lt_zero _)
  forward := fun _ lt => absurd lt (Nat.not_lt_zero _)
  keeps := fun notRoot parent => absurd (initial.isSome (by rw [parent]; rfl)) notRoot

theorem Initial.covers (initial : Initial root table) {Q : α → α → Prop}
    (handed : ∀ {x v}, v ∈ root :: rest → Q x v → x ≠ v →
      v ≠ root ∧ key x < key v ∧ ∀ p ∈ preds v, Q x p) :
    Covers key root Q table := by
  intro v x set holds
  obtain rfl := initial.isSome set
  by_cases same : x = v
  · rw [same]
    exact .self v
  · exact absurd rfl (handed List.mem_cons_self holds same).1

variable (listing : Listing preds root rest rank up)

include listing in
/-- What is clear of a node is clear of its predecessors. -/
theorem clear_handed (member : v ∈ root :: rest)
    (clear : Clear (fun p v => p ∈ preds v) root key x v) (differs : x ≠ v) :
    v ≠ root ∧ key x < key v ∧ ∀ p ∈ preds v, Clear (fun p v => p ∈ preds v) root key x p := by
  obtain ⟨dominates, larger⟩ := clear
  refine ⟨?_, ?_, ?_⟩
  · rintro rfl
    exact differs dominates.eq_root
  · exact larger v (listing.reachable member) ⟨differs.symm, .refl⟩
  · intro p isPred
    refine ⟨dominates.pred differs.symm isPred, fun y reached path => ?_⟩
    exact larger y reached ⟨path.1, path.2.tail ⟨isPred, differs.symm⟩⟩

variable (h : Invariant key preds root rest rank up 0 table)
  (settled : Settled key root preds rest table)

include h settled in
theorem settled_set (member : v ∈ root :: rest) : (table v).isSome := by
  by_cases isRoot : v = root
  · rw [isRoot, h.atRoot]
    rfl
  · obtain ⟨m, isSet, -⟩ := settled v (mem_rest member isRoot)
    rw [isSet]
    rfl

include listing h settled in
/-- A record of a node is a record of all its predecessors. -/
theorem record_pred {p : α} (member : v ∈ root :: rest) (record : Record key root table v x)
    (differs : x ≠ v) (isPred : p ∈ preds v) : Record key root table p x := by
  have notRoot : v ≠ root := by
    rintro rfl
    exact differs record.eq_root
  obtain ⟨m, parent, meet⟩ := settled v (mem_rest member notRoot)
  exact (meet x).mp (record.parent differs parent) p isPred
    (settled_set h settled (listing.closed member isPred))

include listing h settled in
/-- In a settled table the records of a node are the nodes that are clear of it. -/
theorem record_iff_clear
    (covers : Covers key root (Clear (fun p v => p ∈ preds v) root key) table)
    (member : v ∈ root :: rest) :
    Record key root table v x ↔ Clear (fun p v => p ∈ preds v) root key x v := by
  constructor
  · intro record
    -- backwards along a path that avoids `x`
    have along : ∀ {y}, ReachAvoiding (fun p v => p ∈ preds v) x y v →
        Record key root table y x := by
      rintro y ⟨start, path⟩
      induction path using Relation.ReflTransGen.head_induction_on with
      | refl => exact record
      | head step later ih =>
        exact record_pred listing h settled (listing.node_of_path member later) (ih step.2)
          step.2.symm step.1
    refine ⟨fun path => ?_, fun y _ path => ?_⟩
    · exact path.1 (along path).eq_root.symm
    · exact (along path).key_le.resolve_left path.1.symm
  · exact covers v x (settled_set h settled member)

include listing in
theorem ImmediateDominator.unique (member : v ∈ root :: rest)
    (first : ImmediateDominator (fun p v => p ∈ preds v) root u v)
    (second : ImmediateDominator (fun p v => p ∈ preds v) root d v) : u = d := by
  have known := listing.above_node member (listing.dominator_above member second.dominates)
  exact listing.dominates_antisymm known (second.nearest first.strict first.dominates)
    (first.nearest second.strict second.dominates)

include listing h settled in
/-- The entry of a node is its immediate dominator exactly when the immediate dominator is clear of
all predecessors. -/
theorem immediate_iff
    (covers : Covers key root (Clear (fun p v => p ∈ preds v) root key) table)
    (exist : ∃ d, ImmediateDominator (fun p v => p ∈ preds v) root d v)
    (member : v ∈ rest) (parent : table v = some u) :
    ImmediateDominator (fun p v => p ∈ preds v) root u v ↔
      ∀ d, ImmediateDominator (fun p v => p ∈ preds v) root d v →
        ∀ p ∈ preds v, Clear (fun p v => p ∈ preds v) root key d p := by
  have known : v ∈ root :: rest := List.mem_cons_of_mem _ member
  have notRoot : v ≠ root := fun same => listing.root_notMem (same ▸ member)
  obtain ⟨ltU, setU, -⟩ := h.parent notRoot parent
  have clear_iff : ∀ x, Record key root table u x ↔
      ∀ p ∈ preds v, Clear (fun p v => p ∈ preds v) root key x p := by
    intro x
    obtain ⟨m, isSet, meet⟩ := settled v member
    rw [parent] at isSet
    cases isSet
    refine (meet x).trans (forall₂_congr fun p isPred => ?_)
    have knownP := listing.closed known isPred
    rw [← record_iff_clear listing h settled covers knownP]
    exact ⟨fun record => record (settled_set h settled knownP), fun record _ => record⟩
  have ofPreds : ∀ {x}, x ≠ v → (∀ p ∈ preds v, Clear (fun p v => p ∈ preds v) root key x p) →
      Dominates (fun p v => p ∈ preds v) root x v := by
    rintro x differs clear ⟨start, path⟩
    cases path with
    | refl => exact notRoot rfl
    | tail before step => exact (clear _ step.1).1 ⟨start, before⟩
  constructor
  · intro immediate d isImmediate
    rw [ImmediateDominator.unique listing known isImmediate immediate]
    exact (clear_iff u).mp (.self u)
  · intro clear
    obtain ⟨d, isImmediate⟩ := exist
    have record := (clear_iff d).mpr (clear d isImmediate)
    have dominates := ofPreds (fun same => ltU.ne (congrArg rank same)) ((clear_iff u).mp (.self u))
    have nearest := isImmediate.nearest (fun same => ltU.ne (congrArg rank same)) dominates
    have same : d = u := listing.dominates_antisymm (h.node setU)
      ((record_iff_clear listing h settled covers (h.node setU)).mp record).1 nearest
    exact same ▸ isImmediate

include listing in
/-- The way up, gone backwards, avoids the nodes above its end. -/
theorem avoids_of_above (member : v ∈ root :: rest) (above : Above up u v) (lt : rank x < rank u) :
    ReachAvoiding (fun p v => p ∈ preds v) x u v := by
  refine ⟨fun same => lt.ne (congrArg rank same.symm), ?_⟩
  induction above with
  | refl => exact .refl
  | @tail y w before isUp ih =>
    subst isUp
    have known := listing.above_node member before
    by_cases isRoot : y = root
    · subst isRoot
      rw [listing.top] at lt ⊢
      exact ih lt
    · obtain ⟨isPred, lt'⟩ := listing.up_mem (mem_rest known isRoot)
      have larger := lt.trans lt'
      exact .head ⟨isPred, fun same => larger.ne (congrArg rank same.symm)⟩ (ih larger)

include listing in
/-- The first dominator on the way up is the immediate one. -/
theorem exists_immediate (member : v ∈ rest) :
    ∃ d, ImmediateDominator (fun p v => p ∈ preds v) root d v := by
  have known : v ∈ root :: rest := List.mem_cons_of_mem _ member
  obtain ⟨isPred, ltUp⟩ := listing.up_mem member
  suffices climbs : ∀ {w}, Above up w v → rank w < rank v →
      (∀ e, e ≠ v → Dominates (fun p v => p ∈ preds v) root e v → Above up e w) →
      ∃ d, ImmediateDominator (fun p v => p ∈ preds v) root d v by
    refine climbs (parent_above v) ltUp fun e differs dominates => ?_
    exact (listing.dominator_above known dominates).eq_or.resolve_left differs
  intro w above lt all
  induction below : rank w using Nat.strong_induction_on generalizing w with
  | _ n ih =>
    have knownW := listing.above_node known above
    by_cases dominates : Dominates (fun p v => p ∈ preds v) root w v
    · refine ⟨w, fun same => lt.ne (congrArg rank same), dominates,
        fun {e} differs isDom path => ?_⟩
      rcases listing.above_rank knownW (all e differs isDom) with rfl | lt'
      · exact Dominates.refl e path
      · exact isDom (path.trans (avoids_of_above listing known above lt'))
    · have notRoot : w ≠ root := by
        rintro rfl
        exact dominates fun path => path.1 rfl
      obtain ⟨-, lt'⟩ := listing.up_mem (mem_rest knownW notRoot)
      refine ih _ (below ▸ lt') ((parent_above w).trans above) (lt'.trans lt)
        (fun e differs isDom => ?_) rfl
      refine (all e differs isDom).eq_or.resolve_left ?_
      rintro rfl
      exact dominates isDom

include listing in
/-- By the ranks of the nodes every dominator is clear. -/
theorem clear_iff_dominates (member : v ∈ root :: rest) :
    Clear (fun p v => p ∈ preds v) root rank x v ↔
      Dominates (fun p v => p ∈ preds v) root x v := by
  refine ⟨fun clear => clear.1, fun dominates => ⟨dominates, fun y _ path => ?_⟩⟩
  have known := listing.node_of_path member path.2
  have dominatesY : Dominates (fun p v => p ∈ preds v) root x y :=
    fun before => dominates (before.trans path)
  exact (listing.dominator_rank known dominatesY).resolve_left path.1.symm

end Result

/-! ## Ranks as keys -/

section Ranks

variable {preds : α → List α} {root : α} {rest : List α} {rank : α → Nat} {up : α → α}
  {table table' : Table α} {u v x : α} (listing : Listing preds root rest rank up)
  (solution : Solution rank preds root rest rank up table)

include listing solution

theorem Solution.record_iff (member : v ∈ root :: rest) :
    Record rank root table v x ↔ Dominates (fun p v => p ∈ preds v) root x v := by
  rw [record_iff_clear listing solution.invariant solution.settled solution.covers member]
  exact clear_iff_dominates listing member

theorem Solution.immediate (member : v ∈ rest) (parent : table v = some u) :
    ImmediateDominator (fun p v => p ∈ preds v) root u v := by
  have known : v ∈ root :: rest := List.mem_cons_of_mem _ member
  refine (immediate_iff listing solution.invariant solution.settled solution.covers
    (exists_immediate listing member) member parent).mpr fun d immediate p isPred => ?_
  exact (clear_iff_dominates listing (listing.closed known isPred)).mpr
    (immediate.dominates.pred immediate.strict.symm isPred)

theorem Solution.exists_parent (member : v ∈ rest) :
    ∃ u, table v = some u ∧ ImmediateDominator (fun p v => p ∈ preds v) root u v := by
  obtain ⟨u, parent, -⟩ := solution.settled v member
  exact ⟨u, parent, solution.immediate listing member parent⟩

/-- There is one solution only. -/
theorem Solution.unique (solution' : Solution rank preds root rest rank up table') :
    table = table' := by
  funext v
  by_cases isRoot : v = root
  · rw [isRoot, solution.invariant.atRoot, solution'.invariant.atRoot]
  · by_cases member : v ∈ rest
    · obtain ⟨u, parent, immediate⟩ := solution.exists_parent listing member
      obtain ⟨u', parent', immediate'⟩ := solution'.exists_parent listing member
      rw [parent, parent',
        ImmediateDominator.unique listing (List.mem_cons_of_mem _ member) immediate immediate']
    · have outside : v ∉ root :: rest := by
        rw [List.mem_cons, not_or]
        exact ⟨isRoot, member⟩
      have none : ∀ {t : Table α}, Invariant rank preds root rest rank up 0 t → t v = none :=
        fun h => Option.not_isSome_iff_eq_none.mp fun set => outside (h.node set)
      rw [none solution.invariant, none solution'.invariant]

end Ranks

end IterativeDominators

end AnonCompiler.Lib
