import Mathlib.Data.List.DropRight
import Mathlib.Data.List.Infix

/-!
# Names joined with a separator

Lists that are put together from parts with a separator between them.  The last
part can be read back (`JoinedNames.lastPart`), so two lists whose last parts
are free of the separator agree in front of it as well.  Where the parts may
contain the separator themselves, two different splits of one list differ by a
piece that moves from one side to the other (`JoinedNames.join_eq_join_iff`).
-/

set_option autoImplicit false

namespace AnonCompiler.Lib.JoinedNames

universe u

variable {α : Type u} [DecidableEq α] (sep : α)

/-- What follows the last separator. -/
def lastPart (list : List α) : List α := list.rtakeWhile fun x => x ≠ sep

/-- What stands before the last separator. -/
def frontPart (list : List α) : List α := (list.rdropWhile fun x => x ≠ sep).dropLast

variable {sep} {front front' back back' : List α}

theorem lastPart_append (front back : List α) :
    lastPart sep (front ++ sep :: back) = lastPart sep back := by
  induction back using List.reverseRecOn with
  | nil => simp [lastPart]
  | append_singleton back x ih =>
    rw [← List.cons_append, ← List.append_assoc]
    unfold lastPart at ih ⊢
    rw [List.rtakeWhile_concat, List.rtakeWhile_concat, ih]

theorem lastPart_eq_self (free : sep ∉ back) : lastPart sep back = back := by
  apply List.rtakeWhile_eq_self_iff.mpr
  intro x member
  exact decide_eq_true fun same => free (same ▸ member)

theorem frontPart_append (free : sep ∉ back) : frontPart sep (front ++ sep :: back) = front := by
  have split : (front ++ sep :: back).rdropWhile (fun x => x ≠ sep) ++
      lastPart sep (front ++ sep :: back) = front ++ sep :: back :=
    List.rdropWhile_append_rtakeWhile
  rw [lastPart_append, lastPart_eq_self free, List.append_cons front sep back] at split
  rw [frontPart, List.append_cons front sep back, List.append_cancel_right split,
    List.dropLast_concat]

theorem append_inj (free : sep ∉ back) (free' : sep ∉ back') :
    front ++ sep :: back = front' ++ sep :: back' ↔ front = front' ∧ back = back' := by
  constructor
  · intro same
    have last := congrArg (lastPart sep) same
    rw [lastPart_append, lastPart_append, lastPart_eq_self free, lastPart_eq_self free'] at last
    subst last
    exact ⟨List.append_cancel_right same, rfl⟩
  · rintro ⟨rfl, rfl⟩
    rfl

omit [DecidableEq α] in
/-- Two joins give the same list when a piece moves from the back of the one to the front of the
other. -/
theorem join_eq_join_iff :
    front ++ sep :: back = front' ++ sep :: back' ↔
      (front = front' ∧ back = back') ∨
      (∃ piece, front' = front ++ sep :: piece ∧ back = piece ++ sep :: back') ∨
      (∃ piece, front = front' ++ sep :: piece ∧ back' = piece ++ sep :: back) := by
  constructor
  · intro same
    rcases List.append_eq_append_iff.mp same with
      ⟨moved, isFront, isBack⟩ | ⟨moved, isFront, isBack⟩
    · cases moved with
      | nil =>
        rw [List.append_nil] at isFront
        exact .inl ⟨isFront.symm, (List.cons.inj isBack).2⟩
      | cons x piece =>
        obtain ⟨rfl, isPiece⟩ := List.cons.inj isBack
        exact .inr (.inl ⟨piece, isFront, isPiece⟩)
    · cases moved with
      | nil =>
        rw [List.append_nil] at isFront
        exact .inl ⟨isFront, (List.cons.inj isBack).2.symm⟩
      | cons x piece =>
        obtain ⟨rfl, isPiece⟩ := List.cons.inj isBack
        exact .inr (.inr ⟨piece, isFront, isPiece⟩)
  · rintro (⟨rfl, rfl⟩ | ⟨piece, rfl, rfl⟩ | ⟨piece, rfl, rfl⟩)
    · rfl
    · simp
    · simp

end AnonCompiler.Lib.JoinedNames
