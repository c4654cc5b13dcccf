import AnonCompiler.Lib.Dominance
import AnonCompiler.Lib.Fixpoint

/-!
# Natural loops

An edge is a back edge when its target dominates its source.  The natural loop of a
header consists of the header and of the nodes that reach the source of a back edge
to it without going through the header.  In any graph, reducible or not, two loops
are disjoint or nested (`InLoop.comparable`, `InLoop.subset`).

`explore` is the walk that finds a loop backwards from its latches.  `Nested` is
what the loops of a graph have in common with other forests of sets; in a list of
such sets that is sorted by size, the first set that contains an element is the
smallest one (`Nested.first_subset`).
-/

set_option autoImplicit false

namespace AnonCompiler.Lib

section Paths

variable {α : Type} {edge : α → α → Prop} {root u v w x : α}

/-- Two dominators of a node dominate each other one way or the other. -/
theorem Dominates.comparable (reached : Reachable edge root x) (first : Dominates edge root u x)
    (second : Dominates edge root v x) : Dominates edge root u v ∨ Dominates edge root v u := by
  induction reached with
  | refl =>
    rw [first.eq_root, second.eq_root]
    exact .inl (.refl root)
  | @tail p x _ step ih =>
    by_cases sameU : x = u
    · exact .inr (sameU ▸ second)
    · by_cases sameV : x = v
      · exact .inl (sameV ▸ first)
      · exact ih (first.pred sameU step) (second.pred sameV step)

theorem Dominates.antisymm (reached : Reachable edge root v) (first : Dominates edge root u v)
    (second : Dominates edge root v u) : u = v := by
  by_contra differ
  have common : ∀ {x}, Reachable edge root x → Dominates edge root u x →
      ¬ Dominates edge root v x := by
    intro x path
    induction path with
    | refl => exact fun isU isV => differ (isU.eq_root.trans isV.eq_root.symm)
    | @tail p x _ step ih =>
      intro isU isV
      by_cases sameU : x = u
      · have above : Dominates edge root v p := isV.pred (fun same => differ (sameU ▸ same)) step
        exact ih (first.trans above) above
      · have above : Dominates edge root u p := isU.pred sameU step
        exact ih above (second.trans above)
  exact common reached first (.refl v)

/-- From a node that `u` strictly dominates, what that node dominates is reached without going
through `u` again. -/
theorem Dominates.reachAvoiding (reached : Reachable edge root x) (first : Dominates edge root u v)
    (strict : v ≠ u) (second : Dominates edge root v x) : ReachAvoiding edge u v x := by
  induction reached with
  | refl =>
    obtain rfl := second.eq_root
    exact absurd first.eq_root.symm strict
  | @tail p x path step ih =>
    by_cases same : x = v
    · rw [same]
      exact ⟨strict, .refl⟩
    · obtain ⟨start, before⟩ := ih (second.pred same step)
      refine ⟨start, before.tail ⟨step, ?_⟩⟩
      rintro rfl
      exact strict (second.antisymm (path.tail step) first)

end Paths

/-! ## Loops -/

section Loops

variable {α : Type} (edge : α → α → Prop) (root : α)

structure BackEdge (latch header : α) : Prop where
  reached : Reachable edge root latch
  step : edge latch header
  dominates : Dominates edge root header latch

/-- The node belongs to the natural loop of the header. -/
def InLoop (header x : α) : Prop :=
  x = header ∨ ∃ latch, BackEdge edge root latch header ∧ ReachAvoiding edge header x latch

variable {edge root} {h h' x y latch : α}

/-- The header dominates what reaches one of its latches. -/
theorem BackEdge.dominates_of_reach (back : BackEdge edge root latch h)
    (path : ReachAvoiding edge h x latch) : Dominates edge root h x := by
  obtain ⟨-, path⟩ := path
  induction path using Relation.ReflTransGen.head_induction_on with
  | refl => exact back.dominates
  | head step _ ih => exact ih.pred step.2 step.1

theorem InLoop.dominates (inside : InLoop edge root h x) : Dominates edge root h x := by
  rcases inside with rfl | ⟨latch, back, path⟩
  · exact .refl _
  · exact back.dominates_of_reach path

theorem InLoop.pred (inside : InLoop edge root h x) (differ : x ≠ h) (step : edge y x) :
    InLoop edge root h y := by
  by_cases same : y = h
  · exact .inl same
  · obtain rfl | ⟨latch, back, -, path⟩ := inside
    · exact absurd rfl differ
    · exact .inr ⟨latch, back, same, path.head ⟨step, differ⟩⟩

theorem BackEdge.inLoop (back : BackEdge edge root latch h) : InLoop edge root h latch := by
  by_cases same : latch = h
  · exact .inl same
  · exact .inr ⟨latch, back, same, .refl⟩

/-- A loop whose header lies in another loop lies in that loop. -/
theorem InLoop.subset (reached : Reachable edge root h') (inner : InLoop edge root h h')
    (inside : InLoop edge root h' x) : InLoop edge root h x := by
  by_cases same : h' = h
  · exact same ▸ inside
  obtain rfl | ⟨latch', back', path'⟩ := inside
  · exact inner
  · have notHeader : ∀ {y}, ReachAvoiding edge h' y latch' → y ≠ h := by
      rintro y path rfl
      exact same (inner.dominates.antisymm reached (back'.dominates_of_reach path)).symm
    -- the path to the inner latch avoids the outer header
    have clear : ReachAvoiding edge h x latch' := by
      obtain ⟨start, path⟩ := path'
      induction path using Relation.ReflTransGen.head_induction_on with
      | refl => exact ⟨notHeader ⟨start, .refl⟩, .refl⟩
      | @head y z step later ih =>
        have avoids := ih step.2
        exact ⟨notHeader ⟨start, later.head step⟩, avoids.2.head ⟨step.1, avoids.1⟩⟩
    obtain rfl | ⟨latch, back, outer⟩ := inner
    · exact absurd rfl same
    · have last : ReachAvoiding edge h latch' h' :=
        ⟨clear.target_ne, .single ⟨back'.step, same⟩⟩
      exact .inr ⟨latch, back, clear.trans (last.trans outer)⟩

/-- Of two loops with a common node one contains the header of the other. -/
theorem InLoop.comparable (reached : Reachable edge root x) (first : InLoop edge root h x)
    (second : InLoop edge root h' x) : InLoop edge root h h' ∨ InLoop edge root h' h := by
  have inner : ∀ {h h'}, InLoop edge root h x → Dominates edge root h h' →
      Dominates edge root h' x → InLoop edge root h h' := by
    intro h h' inside above below
    by_cases same : h' = h
    · exact .inl same
    · obtain rfl | ⟨latch, back, path⟩ := inside
      · exact .inl (below.antisymm reached above)
      · exact .inr ⟨latch, back, (above.reachAvoiding reached same below).trans path⟩
  rcases first.dominates.comparable reached second.dominates with above | above
  · exact .inl (inner first above second.dominates)
  · exact .inr (inner second above first.dominates)

/-- Two loops that contain each other's headers are one. -/
theorem InLoop.antisymm (reached : Reachable edge root h') (first : InLoop edge root h h')
    (second : InLoop edge root h' h) : h = h' :=
  first.dominates.antisymm reached second.dominates

end Loops

/-! ## The backwards walk -/

section Explore

variable {α : Type} [DecidableEq α]

/-- The nodes that wait and the nodes that were met. -/
structure Explored (α : Type) where
  waiting : List α
  seen : List α

def Explored.meet (s : Explored α) (b : α) : Explored α :=
  if b ∈ s.seen then s else ⟨s.waiting ++ [b], b :: s.seen⟩

/-- One turn: the first node that waits sends out its neighbours. -/
def explore (next : α → List α) (s : Explored α) : Option (Explored α ⊕ List α) :=
  match s.waiting with
  | [] => some (.inr s.seen)
  | a :: rest => some (.inl ((next a).foldl Explored.meet ⟨rest, s.seen⟩))

/-- What a turn leaves where the neighbours were met. -/
structure Explored.Meets (neighbours : List α) (s s' : Explored α) : Prop where
  kept : s.seen ⊆ s'.seen
  met : ∀ b ∈ neighbours, b ∈ s'.seen
  origin : ∀ b ∈ s'.seen, b ∈ s.seen ∨ b ∈ neighbours
  waits : ∀ b, b ∈ s'.waiting ↔ b ∈ s.waiting ∨ b ∈ s'.seen ∧ b ∉ s.seen
  nodup : s.seen.Nodup → s'.seen.Nodup
  length : s'.waiting.length + s.seen.length = s.waiting.length + s'.seen.length

theorem Explored.foldl_meets (neighbours : List α) (s : Explored α) :
    Meets neighbours s (neighbours.foldl meet s) := by
  induction neighbours generalizing s with
  | nil =>
    exact ⟨fun _ => id, by simp, fun _ => .inl, by simp, id, rfl⟩
  | cons b neighbours ih =>
    rw [List.foldl_cons]
    obtain ⟨kept, met, origin, waits, nodup, length⟩ := ih (s.meet b)
    by_cases known : b ∈ s.seen
    · have same : s.meet b = s := if_pos known
      rw [same] at kept met origin waits nodup length ⊢
      refine ⟨kept, ?_, fun c member =>
        (origin c member).imp_right (List.mem_cons_of_mem _), waits, nodup, length⟩
      exact List.forall_mem_cons.mpr ⟨kept known, met⟩
    · have added : s.meet b = ⟨s.waiting ++ [b], b :: s.seen⟩ := if_neg known
      rw [added] at kept met origin waits nodup length ⊢
      have isSeen := kept List.mem_cons_self
      refine ⟨fun c member => kept (List.mem_cons_of_mem _ member), ?_, ?_, ?_, ?_, ?_⟩
      · exact List.forall_mem_cons.mpr ⟨isSeen, met⟩
      · intro c member
        have := origin c member
        simp only [List.mem_cons] at this ⊢
        tauto
      · intro c
        rw [waits c]
        simp only [List.mem_append, List.mem_cons, List.not_mem_nil, or_false, not_or]
        by_cases same : c = b
        · subst same
          tauto
        · tauto
      · exact fun distinct => nodup (List.nodup_cons.mpr ⟨known, distinct⟩)
      · simp only [List.length_append, List.length_cons, List.length_nil] at length
        omega

/-- Between two turns. -/
structure Exploring (next : α → List α) (inside : α → Prop) (stop : α) (s : Explored α) : Prop where
  sound : ∀ x ∈ s.seen, inside x
  stopSeen : stop ∈ s.seen
  waiting : ∀ x ∈ s.waiting, x ∈ s.seen ∧ x ≠ stop
  closed : ∀ x ∈ s.seen, x ≠ stop → x ∈ s.waiting ∨ ∀ y ∈ next x, y ∈ s.seen
  nodup : s.seen.Nodup

variable {next : α → List α} {inside : α → Prop} {stop : α} {s s' : Explored α}
  (spreads : ∀ {x y}, inside x → x ≠ stop → y ∈ next x → inside y)

include spreads in
theorem Exploring.step (h : Exploring next inside stop s)
    (stepped : explore next s = some (.inl s')) : Exploring next inside stop s' ∧ s.seen ⊆ s'.seen ∧
      s'.waiting.length + s.seen.length < s.waiting.length + s'.seen.length := by
  obtain ⟨waiting, seen⟩ := s
  cases waiting with
  | nil => cases stepped
  | cons a rest =>
    cases stepped
    obtain ⟨known, notStop⟩ := h.waiting a List.mem_cons_self
    obtain ⟨kept, met, origin, waits, nodup, length⟩ := Explored.foldl_meets (next a) ⟨rest, seen⟩
    generalize (next a).foldl Explored.meet ⟨rest, seen⟩ =
      s' at kept met origin waits nodup length
    refine ⟨⟨?_, kept h.stopSeen, ?_, ?_, nodup h.nodup⟩, kept, ?_⟩
    · intro x member
      rcases origin x member with old | isNext
      · exact h.sound x old
      · exact spreads (h.sound a known) notStop isNext
    · intro x waiting
      rcases (waits x).mp waiting with old | ⟨isSeen, fresh⟩
      · obtain ⟨isSeen, differs⟩ := h.waiting x (List.mem_cons_of_mem _ old)
        exact ⟨kept isSeen, differs⟩
      · refine ⟨isSeen, ?_⟩
        rintro rfl
        exact fresh h.stopSeen
    · intro x member differs
      by_cases old : x ∈ seen
      · rcases h.closed x old differs with waiting | closed
        · rcases List.mem_cons.mp waiting with rfl | waiting
          · exact .inr met
          · exact .inl ((waits x).mpr (.inl waiting))
        · exact .inr fun y isNext => kept (closed y isNext)
      · exact .inl ((waits x).mpr (.inr ⟨member, old⟩))
    · simp only [List.length_cons] at length ⊢
      omega

include spreads in
/-- The walk ends with a set that is closed outside the node at which it stops. -/
theorem Exploring.finished {fuel : Nat} {result : List α} (h : Exploring next inside stop s)
    (ran : loop (explore next) fuel s = some result) :
    s.seen ⊆ result ∧ result.Nodup ∧ (∀ x ∈ result, inside x) ∧
      ∀ x ∈ result, x ≠ stop → ∀ y ∈ next x, y ∈ result := by
  obtain ⟨last, ⟨exploring, grown⟩, ended⟩ := loop_invariant
    (Q := fun t => Exploring next inside stop t ∧ s.seen ⊆ t.seen)
    (fun holds stepped => by
      obtain ⟨exploring, grown, -⟩ := holds.1.step spreads stepped
      exact ⟨exploring, List.Subset.trans holds.2 grown⟩) ⟨h, List.Subset.refl _⟩ ran
  obtain ⟨waiting, seen⟩ := last
  cases waiting with
  | cons a rest => cases ended
  | nil =>
    cases ended
    refine ⟨grown, exploring.nodup, exploring.sound, fun x member differs => ?_⟩
    exact (exploring.closed x member differs).resolve_left List.not_mem_nil

include spreads in
theorem Exploring.total {fuel : Nat} {within : List α} (h : Exploring next inside stop s)
    (bounded : ∀ x, inside x → x ∈ within) (enough : s.waiting.length + within.length < fuel) :
    (loop (explore next) fuel s).isSome := by
  refine loop_total (Q := Exploring next inside stop)
    (fun t => t.waiting.length + (within.length - t.seen.length)) (fun {t} holds => ?_) h (by omega)
  have fits : ∀ {t : Explored α}, Exploring next inside stop t → t.seen.length ≤ within.length :=
    fun holds => (holds.nodup.subperm fun x member => bounded x (holds.sound x member)).length_le
  cases waits : t.waiting with
  | nil =>
    refine ⟨.inr t.seen, ?_, ?_⟩
    · rw [explore, waits]
    · intro t' absurd
      cases absurd
  | cons a rest =>
    have stepped : explore next t =
        some (.inl ((next a).foldl Explored.meet ⟨rest, t.seen⟩)) := by
      rw [explore, waits]
    refine ⟨_, stepped, fun t' same => ?_⟩
    cases same
    obtain ⟨exploring, -, less⟩ := holds.step spreads stepped
    have := fits holds
    have := fits exploring
    rw [waits] at less
    refine ⟨exploring, ?_⟩
    omega

end Explore

/-! ## Lists of nested sets -/

section Nested

variable {ι β : Type}

/-- Sets with heads, in the order of their size, that are disjoint or nested. -/
structure Nested (head : ι → β) (body : ι → List β) (loops : List ι) : Prop where
  common : ∀ {a b x}, a ∈ loops → b ∈ loops → x ∈ body a → x ∈ body b →
    head a ∈ body b ∨ head b ∈ body a
  subset : ∀ {a b}, a ∈ loops → b ∈ loops → head a ∈ body b → body a ⊆ body b
  antisymm : ∀ {a b}, a ∈ loops → b ∈ loops → head a ∈ body b → head b ∈ body a → head a = head b
  head_mem : ∀ {a}, a ∈ loops → head a ∈ body a
  heads_nodup : (loops.map head).Nodup
  nodup : ∀ {a}, a ∈ loops → (body a).Nodup
  sorted : loops.Pairwise fun a b => (body a).length ≤ (body b).length

variable {head : ι → β} {body : ι → List β} {loops : List ι} (nested : Nested head body loops)
  {i j : Nat} {a b : ι} {x : β} (atI : loops[i]? = some a) (atJ : loops[j]? = some b)

include nested atI atJ

theorem Nested.length_le (le : i ≤ j) : (body a).length ≤ (body b).length := by
  rcases le.eq_or_lt with rfl | lt
  · rw [Option.some.inj (atI.symm.trans atJ)]
  · obtain ⟨hi, rfl⟩ := List.getElem?_eq_some_iff.mp atI
    obtain ⟨hj, rfl⟩ := List.getElem?_eq_some_iff.mp atJ
    exact List.pairwise_iff_getElem.mp nested.sorted i j hi hj lt

theorem Nested.eq_of_head (same : head a = head b) : i = j := by
  have headI : (loops.map head)[i]? = some (head a) := by rw [List.getElem?_map, atI]; rfl
  have headJ : (loops.map head)[j]? = some (head a) := by rw [List.getElem?_map, atJ, same]; rfl
  obtain ⟨hi, isI⟩ := List.getElem?_eq_some_iff.mp headI
  obtain ⟨hj, isJ⟩ := List.getElem?_eq_some_iff.mp headJ
  exact nested.heads_nodup.getElem_inj_iff.mp (isI.trans isJ.symm)

/-- Of two sets with a common element the earlier one is the smaller one. -/
theorem Nested.first_subset (le : i ≤ j) (first : x ∈ body a) (second : x ∈ body b) :
    body a ⊆ body b := by
  have memberA := List.mem_of_getElem? atI
  have memberB := List.mem_of_getElem? atJ
  rcases nested.common memberA memberB first second with inner | inner
  · exact nested.subset memberA memberB inner
  · have perm :=
      ((nested.nodup memberB).subperm (nested.subset memberB memberA inner)).perm_of_length_le
      (nested.length_le atI atJ le)
    exact perm.symm.subset

/-- A set that contains the head of another one comes later. -/
theorem Nested.lt_of_head (differ : i ≠ j) (inner : head a ∈ body b) : i < j := by
  by_contra notLt
  have memberA := List.mem_of_getElem? atI
  have memberB := List.mem_of_getElem? atJ
  have below := nested.first_subset atJ atI (Nat.not_lt.mp notLt) inner (nested.head_mem memberA)
  exact differ (nested.eq_of_head atI atJ
    (nested.antisymm memberA memberB inner (below (nested.head_mem memberB))))

end Nested

end AnonCompiler.Lib
