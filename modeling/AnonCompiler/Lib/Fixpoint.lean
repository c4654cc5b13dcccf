import Mathlib.Data.List.Basic

/-!
# Iteration to a fixed point

`iterate` repeats a step until it has nothing left to do.  An invariant of the
step is an invariant of the result, and with a measure that the step decreases
the result is stable: no step is left.  `loop` repeats a step that may fail until
it delivers a result.  `closure` is the least set that contains its roots and is
closed under successors, by iteration.
-/

set_option autoImplicit false

namespace AnonCompiler.Lib

universe u

section Iterate

variable {α : Type u} (step : α → Option α)

/-- Repeat a step until it has nothing left to do, at most `fuel` times. -/
def iterate : Nat → α → α
  | 0, a => a
  | fuel + 1, a =>
    match step a with
    | none => a
    | some b => iterate fuel b

variable {step}

theorem iterate_invariant {Q : α → Prop} (keeps : ∀ {a b}, Q a → step a = some b → Q b)
    (fuel : Nat) {a : α} (h : Q a) : Q (iterate step fuel a) := by
  induction fuel generalizing a with
  | zero => exact h
  | succ fuel ih =>
    rw [iterate]
    split
    · exact h
    · next b stepped => exact ih (keeps h stepped)

variable (step) in
/-- With enough fuel there is nothing left to do. -/
theorem iterate_stable (measure : α → Nat)
    (decreases : ∀ {a b}, step a = some b → measure b < measure a) {fuel : Nat} {a : α}
    (enough : measure a ≤ fuel) : step (iterate step fuel a) = none := by
  induction fuel generalizing a with
  | zero =>
    cases stepped : step a with
    | none => exact stepped
    | some b =>
      have := decreases stepped
      omega
  | succ fuel ih =>
    rw [iterate]
    split
    · assumption
    · next b stepped =>
        have := decreases stepped
        exact ih (by omega)

end Iterate

section Loop

variable {σ β : Type u}

/-- Repeat a step until it delivers a result.  `none` is a step that fails, or no
result within `fuel` steps. -/
def loop (step : σ → Option (σ ⊕ β)) : Nat → σ → Option β
  | 0, _ => none
  | fuel + 1, s =>
    match step s with
    | none => none
    | some (.inl t) => loop step fuel t
    | some (.inr result) => some result

variable {fuel : Nat} {Q : σ → Prop}

theorem loop_inl {step : σ → Option (σ ⊕ β)} {s t : σ} (stepped : step s = some (.inl t))
    (fuel : Nat) : loop step (fuel + 1) s = loop step fuel t := by
  rw [loop, stepped]

variable {step : σ → Option (σ ⊕ β)} {s t : σ} {result : β}

/-- More fuel does not change the result. -/
theorem loop_mono {fuel' : Nat} (ran : loop step fuel s = some result) (le : fuel ≤ fuel') :
    loop step fuel' s = some result := by
  induction fuel generalizing s fuel' with
  | zero => cases ran
  | succ fuel ih =>
    obtain ⟨fuel', rfl⟩ : ∃ n, fuel' = n + 1 := ⟨fuel' - 1, by omega⟩
    rw [loop] at ran ⊢
    cases stepped : step s with
    | none => simp [stepped] at ran
    | some next =>
      rw [stepped] at ran
      cases next with
      | inl t => exact ih ran (by omega)
      | inr result => exact ran

/-- An invariant of the step holds where the result is delivered. -/
theorem loop_invariant (keeps : ∀ {s t}, Q s → step s = some (.inl t) → Q t) (holds : Q s)
    (ran : loop step fuel s = some result) : ∃ last, Q last ∧ step last = some (.inr result) := by
  induction fuel generalizing s with
  | zero => cases ran
  | succ fuel ih =>
    rw [loop] at ran
    cases stepped : step s with
    | none => simp [stepped] at ran
    | some next =>
      rw [stepped] at ran
      cases next with
      | inl t => exact ih (keeps holds stepped) ran
      | inr result =>
        cases ran
        exact ⟨s, holds, stepped⟩

/-- A step that does not fail and decreases a measure delivers a result in the end. -/
theorem loop_total (measure : σ → Nat)
    (total : ∀ {s}, Q s → ∃ next, step s = some next ∧ ∀ t, next = .inl t → Q t ∧
    measure t < measure s)
    (holds : Q s) (enough : measure s < fuel) : (loop step fuel s).isSome := by
  induction fuel generalizing s with
  | zero => exact absurd enough (Nat.not_lt_zero _)
  | succ fuel ih =>
    obtain ⟨next, stepped, less⟩ := total holds
    rw [loop, stepped]
    cases next with
    | inl t =>
      obtain ⟨holds', lt⟩ := less t rfl
      exact ih holds' (by omega)
    | inr result => rfl

end Loop

section Closure

variable {α : Type u} [DecidableEq α] (succ : α → List α)

/-- The successors that are not there yet. -/
def missing (seen : List α) : List α := (seen.flatMap succ).filter (· ∉ seen)

/-- Add the successors that are missing. -/
def grow (seen : List α) : Option (List α) :=
  if missing succ seen = [] then none else some (seen ++ missing succ seen)

/-- What is reachable from the roots, inside a list that contains all
successors. -/
def closure (within roots : List α) : List α := iterate (grow succ) within.length roots

variable {succ} {within roots seen more : List α} {a b : α}

theorem mem_missing : b ∈ missing succ seen ↔ (∃ a ∈ seen, b ∈ succ a) ∧ b ∉ seen := by
  simp [missing]

theorem grow_eq_some :
    grow succ seen = some more ↔ missing succ seen ≠ [] ∧ more = seen ++ missing succ seen := by
  unfold grow
  split
  · next nothing => simp [nothing]
  · next some_missing => simp only [Option.some.injEq, ne_eq, some_missing, not_false_iff, true_and,
      eq_comm]

theorem subset_closure : roots ⊆ closure succ within roots := by
  refine iterate_invariant (fun inside grown => ?_) _ (List.Subset.refl roots)
  obtain ⟨-, rfl⟩ := grow_eq_some.mp grown
  exact List.subset_append_of_subset_left _ inside

/-- Each round takes a new element of the surrounding list. -/
theorem grow_decreases (inside : ∀ a, succ a ⊆ within) (grown : grow succ seen = some more) :
    (within.filter (· ∉ more)).length < (within.filter (· ∉ seen)).length := by
  obtain ⟨some_missing, rfl⟩ := grow_eq_some.mp grown
  obtain ⟨b, isMissing⟩ := List.exists_mem_of_ne_nil _ some_missing
  have split_filter : within.filter (· ∉ seen ++ missing succ seen) =
      (within.filter (· ∉ seen)).filter (· ∉ missing succ seen) := by
    rw [List.filter_filter]
    refine List.filter_congr fun c _ => ?_
    simp only [List.mem_append, not_or, Bool.decide_and, Bool.and_comm]
  rw [split_filter]
  refine List.length_filter_lt_length_iff_exists.mpr ⟨b, ?_, by simpa using isMissing⟩
  obtain ⟨⟨a, -, isSuccessor⟩, notSeen⟩ := mem_missing.mp isMissing
  exact List.mem_filter.mpr ⟨inside a isSuccessor, by simpa using notSeen⟩

theorem closure_closed (inside : ∀ a, succ a ⊆ within) (reached : a ∈ closure succ within roots)
    (isSuccessor : b ∈ succ a) : b ∈ closure succ within roots := by
  have stable : grow succ (closure succ within roots) = none := by
    exact iterate_stable (grow succ) (fun seen => (within.filter (· ∉ seen)).length)
      (fun grown => grow_decreases inside grown) (List.length_filter_le ..)
  by_contra notReached
  have isMissing := mem_missing.mpr ⟨⟨a, reached, isSuccessor⟩, notReached⟩
  have some_missing := List.ne_nil_of_mem isMissing
  rw [grow_eq_some.mpr ⟨some_missing, rfl⟩] at stable
  cases stable

end Closure

end AnonCompiler.Lib
