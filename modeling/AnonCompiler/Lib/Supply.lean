import Mathlib.Algebra.BigOperators.Group.Finset.Basic
import Mathlib.Algebra.Order.BigOperators.Group.Finset
import Mathlib.Order.Bounds.Basic

/-!
# Items that nothing needs

Items define resources and use them, and some uses come from outside.  A candidate is
idle when nobody outside uses what it defines, and every item that does is idle itself;
the idle items are the least set with this property (`Supply.idle_isLeast`), so items
that only keep each other busy are not idle.

`Supply.remaining` counts the uses of a resource that are left when some items have been
dropped.  Dropping candidates whose resources have no use left, in any order, drops idle
items only (`Supply.idle_of_remaining`), and when no such candidate is left, all of them
have been dropped (`Supply.isLeast_of_stable`).
-/

set_option autoImplicit false

namespace AnonCompiler.Lib

structure Supply (ι ρ : Type) where
  items : Finset ι
  candidate : ι → Prop
  defs : ι → List ρ
  /-- The resources an item uses, once for each use. -/
  uses : ι → List ρ
  /-- The uses from outside. -/
  wanted : List ρ

namespace Supply

variable {ι ρ : Type} (A : Supply ι ρ)

/-- The set contains every candidate that is needed inside the set only. -/
def Closed (S : Set ι) : Prop :=
  ∀ i ∈ A.items, A.candidate i →
    (∀ r ∈ A.defs i, r ∉ A.wanted ∧ ∀ j ∈ A.items, r ∈ A.uses j → j ∈ S) → i ∈ S

/-- The candidates that nothing needs in the end. -/
inductive Idle : ι → Prop
  | intro {i : ι} (item : i ∈ A.items) (candidate : A.candidate i)
      (unwanted : ∀ r ∈ A.defs i, r ∉ A.wanted)
      (users : ∀ r ∈ A.defs i, ∀ j ∈ A.items, r ∈ A.uses j → Idle j) : Idle i

theorem idle_isLeast : IsLeast {S | A.Closed S} {i | A.Idle i} := by
  constructor
  · intro i item candidate unneeded
    exact .intro item candidate (fun r isDef => (unneeded r isDef).1)
      (fun r isDef => (unneeded r isDef).2)
  · intro S closed i idle
    induction idle with
    | intro item candidate unwanted users ih =>
      exact closed _ item candidate fun r isDef => ⟨unwanted r isDef, ih r isDef⟩

variable {A} {dropped : Finset ι} {i : ι}

variable [DecidableEq ι] [DecidableEq ρ]

variable (A) in
/-- The uses of a resource that are left when some items have been dropped. -/
def remaining (dropped : Finset ι) (r : ρ) : Nat :=
  A.wanted.count r + ∑ j ∈ A.items \ dropped, (A.uses j).count r

theorem remaining_eq_zero {r : ρ} :
    A.remaining dropped r = 0 ↔ r ∉ A.wanted ∧ ∀ j ∈ A.items, r ∈ A.uses j → j ∈ dropped := by
  simp only [remaining, Nat.add_eq_zero_iff, List.count_eq_zero, Finset.sum_eq_zero_iff,
    Finset.mem_sdiff]
  refine and_congr_right fun _ => forall_congr' fun j => ?_
  exact ⟨fun unused item isUse => by_contra fun kept => unused ⟨item, kept⟩ isUse,
    fun users inside isUse => inside.2 (users inside.1 isUse)⟩

/-- Dropping an item takes its uses away. -/
theorem remaining_insert (item : i ∈ A.items) (kept : i ∉ dropped) (r : ρ) :
    A.remaining (insert i dropped) r + (A.uses i).count r = A.remaining dropped r := by
  have inside : i ∈ A.items \ dropped := Finset.mem_sdiff.mpr ⟨item, kept⟩
  have rest : A.items \ insert i dropped = (A.items \ dropped).erase i := by
    ext j
    simp only [Finset.mem_sdiff, Finset.mem_insert, Finset.mem_erase]
    tauto
  rw [remaining, remaining, rest, Nat.add_assoc, Finset.sum_erase_add _ _ inside]

/-- An item that is still there has its uses among those that are left. -/
theorem count_le_remaining (item : i ∈ A.items) (kept : i ∉ dropped) (r : ρ) :
    (A.uses i).count r ≤ A.remaining dropped r := by
  have := remaining_insert item kept r
  omega

/-- When idle items have been dropped, a candidate without a use left is idle. -/
theorem idle_of_remaining (sound : ∀ j ∈ dropped, A.Idle j) (item : i ∈ A.items)
    (candidate : A.candidate i) (unused : ∀ r ∈ A.defs i, A.remaining dropped r = 0) : A.Idle i :=
  .intro item candidate (fun r isDef => (remaining_eq_zero.mp (unused r isDef)).1)
    fun r isDef j user isUse => sound j ((remaining_eq_zero.mp (unused r isDef)).2 j user isUse)

/-- When idle items have been dropped and no candidate without a use is left, the dropped
items are the idle ones. -/
theorem isLeast_of_stable (sound : ∀ j ∈ dropped, A.Idle j)
    (stable : ∀ i ∈ A.items, A.candidate i →
      (∀ r ∈ A.defs i, A.remaining dropped r = 0) → i ∈ dropped) :
    IsLeast {S | A.Closed S} (dropped : Set ι) := by
  constructor
  · intro i item candidate unneeded
    exact stable i item candidate fun r isDef => remaining_eq_zero.mpr (unneeded r isDef)
  · intro S closed j isDropped
    exact A.idle_isLeast.2 closed (sound j isDropped)

end Supply

end AnonCompiler.Lib
