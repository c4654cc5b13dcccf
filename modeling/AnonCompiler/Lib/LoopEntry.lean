import AnonCompiler.Lib.NaturalLoops

/-!
# One entry for a loop

The edges that enter a natural loop from outside are collected in a new node, from which
one edge goes on to the header.  Nothing else changes: dominance among the old nodes, the
back edges to the header and the nodes of the loop stay the same, and the new node is the
only way into the loop.
-/

set_option autoImplicit false

namespace AnonCompiler.Lib

/-- Edges from outside to `h` go to `n` instead, and from there to `h`. -/
inductive ViaEntry {α : Type} (edge : α → α → Prop) (inside : α → Prop) (h n : α) : α → α →
    Prop where
  | kept {p v : α} (step : edge p v) (stays : v = h → inside p) : ViaEntry edge inside h n p v
  | enter {p : α} (step : edge p h) (outside : ¬ inside p) : ViaEntry edge inside h n p n
  | arrive : ViaEntry edge inside h n n h

section Paths

variable {α : Type} {edge : α → α → Prop} {inside : α → Prop} {root h n u v x : α}

theorem reachable_iff_unguarded :
    Reachable edge root v ↔ Relation.ReflTransGen (fun x y => edge x y ∧ True) root v :=
  ⟨Relation.ReflTransGen.mono (fun _ _ step => ⟨step, trivial⟩) _ _,
    Relation.ReflTransGen.mono (fun _ _ step => step.1) _ _⟩

theorem ViaEntry.of_edge (inside : α → Prop) (h n : α) {p : α} (step : edge p v) :
    ViaEntry edge inside h n p v ∨ v = h ∧ ViaEntry edge inside h n p n := by
  by_cases stays : v = h → inside p
  · exact .inl (.kept step stays)
  · push Not at stays
    obtain ⟨rfl, outside⟩ := stays
    exact .inr ⟨rfl, .enter step outside⟩

/-- Old paths become new ones, perhaps through the new node. -/
theorem ViaEntry.path (inside : α → Prop) (h : α) {ok : α → Prop} (free : ok n)
    (path : Relation.ReflTransGen (fun x y => edge x y ∧ ok y) u v) :
    Relation.ReflTransGen (fun x y => ViaEntry edge inside h n x y ∧ ok y) u v := by
  induction path with
  | refl => exact .refl
  | @tail p v _ step ih =>
    obtain ⟨step, allowed⟩ := step
    rcases ViaEntry.of_edge inside h n step with kept | ⟨rfl, enters⟩
    · exact ih.tail ⟨kept, allowed⟩
    · exact (ih.tail ⟨enters, free⟩).tail ⟨.arrive, allowed⟩

variable (fresh : ∀ {p v}, edge p v → p ≠ n ∧ v ≠ n)

include fresh

/-- A new path to an old node was an old one; to the new node it comes from outside. -/
theorem ViaEntry.path_old {ok : α → Prop} (old : u ≠ n)
    (path : Relation.ReflTransGen (fun x y => ViaEntry edge inside h n x y ∧ ok y) u v) :
    (v ≠ n → Relation.ReflTransGen (fun x y => edge x y ∧ ok y) u v) ∧
      (v = n → ∃ p, Relation.ReflTransGen (fun x y => edge x y ∧ ok y) u p ∧ edge p h ∧
        ¬ inside p) := by
  induction path with
  | refl => exact ⟨fun _ => .refl, fun same => absurd same old⟩
  | @tail p v _ step ih =>
    obtain ⟨step, allowed⟩ := step
    cases step with
    | kept step =>
      obtain ⟨oldP, oldV⟩ := fresh step
      exact ⟨fun _ => (ih.1 oldP).tail ⟨step, allowed⟩, fun same => absurd same oldV⟩
    | enter step outside =>
      exact ⟨fun differ => absurd rfl differ, fun _ => ⟨p, ih.1 (fresh step).1, step, outside⟩⟩
    | arrive =>
      obtain ⟨q, path, step, -⟩ := ih.2 rfl
      exact ⟨fun _ => path.tail ⟨step, allowed⟩, fun same => absurd same (fresh step).2⟩

theorem ViaEntry.reachable_iff (old : root ≠ n) (oldV : v ≠ n) :
    Reachable (ViaEntry edge inside h n) root v ↔ Reachable edge root v := by
  rw [reachable_iff_unguarded, reachable_iff_unguarded]
  exact ⟨fun path => (path_old fresh old path).1 oldV, ViaEntry.path inside h trivial⟩

theorem ViaEntry.dominates_iff (old : root ≠ n) (oldU : u ≠ n) (oldV : v ≠ n) :
    Dominates (ViaEntry edge inside h n) root u v ↔ Dominates edge root u v := by
  refine not_congr (and_congr_right fun _ => ?_)
  exact ⟨fun path => (path_old fresh old path).1 oldV, ViaEntry.path inside h oldU.symm⟩

end Paths

/-- A node that is reached is reached from a node it does not dominate. -/
theorem exists_entry {α : Type} {edge : α → α → Prop} {root h : α} (reached : Reachable edge root h)
    (notRoot : h ≠ root) : ∃ p, ReachAvoiding edge h root p ∧ edge p h := by
  have along : ∀ {v}, Reachable edge root v →
      ReachAvoiding edge h root v ∨ ∃ p, ReachAvoiding edge h root p ∧ edge p h := by
    intro v path
    induction path with
    | refl => exact .inl ⟨notRoot.symm, .refl⟩
    | @tail p v _ step ih =>
      rcases ih with avoids | found
      · by_cases same : v = h
        · exact .inr ⟨p, avoids, same ▸ step⟩
        · exact .inl ⟨avoids.1, avoids.2.tail ⟨step, same⟩⟩
      · exact .inr found
  exact (along reached).resolve_left fun avoids => avoids.target_ne rfl

section Loop

variable {α : Type} {edge : α → α → Prop} {root h n x latch : α}
  (fresh : ∀ {p v}, edge p v → p ≠ n ∧ v ≠ n) (old : root ≠ n) (oldH : h ≠ n)

include fresh old oldH

/-- The new node has no back edge. -/
theorem ViaEntry.backEdge_iff :
    BackEdge (ViaEntry edge (InLoop edge root h) h n) root latch h ↔
      BackEdge edge root latch h := by
  constructor
  · rintro ⟨reached, step, dominates⟩
    by_cases isNew : latch = n
    · subst isNew
      exfalso
      obtain ⟨p, path, step, outside⟩ :=
        (path_old fresh old (reachable_iff_unguarded.mp reached)).2 rfl
      refine outside (BackEdge.inLoop ⟨reachable_iff_unguarded.mpr path, step, ?_⟩)
      rintro ⟨start, avoids⟩
      have before : Relation.ReflTransGen
          (fun x y => ViaEntry edge (InLoop edge root h) h latch x y ∧ y ≠ h) root p :=
        ViaEntry.path _ h oldH.symm avoids
      exact dominates ⟨start, before.tail ⟨.enter step outside, oldH.symm⟩⟩
    · cases step with
      | kept step =>
        exact ⟨(reachable_iff fresh old isNew).mp reached, step,
          (dominates_iff fresh old oldH isNew).mp dominates⟩
      | enter => exact absurd rfl oldH
      | arrive => exact absurd rfl isNew
  · intro back
    have oldL := (fresh back.step).1
    exact ⟨(reachable_iff fresh old oldL).mpr back.reached, .kept back.step fun _ => back.inLoop,
      (dominates_iff fresh old oldH oldL).mpr back.dominates⟩

/-- The loop keeps its nodes. -/
theorem ViaEntry.inLoop_iff :
    InLoop (ViaEntry edge (InLoop edge root h) h n) root h x ↔ InLoop edge root h x := by
  refine or_congr_right (exists_congr fun latch => ?_)
  rw [backEdge_iff fresh old oldH]
  refine and_congr_right fun back => ?_
  have oldL := (fresh back.step).1
  constructor
  · rintro ⟨start, path⟩
    refine ⟨start, ?_⟩
    have steps : Relation.ReflTransGen (fun x y => edge x y ∧ y ≠ h) x latch ∧ x ≠ n := by
      induction path using Relation.ReflTransGen.head_induction_on with
      | refl => exact ⟨.refl, oldL⟩
      | head step _ ih =>
        obtain ⟨later, oldY⟩ := ih step.2
        cases step.1 with
        | kept edge => exact ⟨later.head ⟨edge, step.2⟩, (fresh edge).1⟩
        | enter => exact absurd rfl oldY
        | arrive => exact absurd rfl step.2
    exact steps.1
  · rintro ⟨start, path⟩
    refine ⟨start, ?_⟩
    exact Relation.ReflTransGen.mono
      (fun _ _ step => ⟨.kept step.1 fun same => absurd same step.2, step.2⟩) _ _ path

omit fresh old in
/-- The new node is the only way into the loop. -/
theorem ViaEntry.eq_entry {inside : α → Prop} {p : α} (step : ViaEntry edge inside h n p h)
    (outside : ¬ inside p) : p = n := by
  cases step with
  | kept _ stays => exact absurd (stays rfl) outside
  | enter => exact absurd rfl oldH
  | arrive => rfl

end Loop

end AnonCompiler.Lib
