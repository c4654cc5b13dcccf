import Mathlib.Data.List.Basic
import Mathlib.Data.List.Nodup
import Mathlib.Tactic

/-!
# Removing positions of a list

`removeAt` removes the elements at given positions one after the other.  When the positions
come from the back to the front, each is still a position of the original list, and what
remains are the elements at all other positions (`keepFrom`).
-/

set_option autoImplicit false

namespace AnonCompiler.Lib

variable {α β : Type}

/-- Remove the elements at the positions, in the order given; there is no result past the end. -/
def removeAt : List Nat → List α → Option (List α)
  | [], list => some list
  | i :: rest, list => if i < list.length then removeAt rest (list.eraseIdx i) else none

/-- The elements whose position, counted from `i`, is not dropped. -/
def keepFrom (dropped : Nat → Bool) : Nat → List α → List α
  | _, [] => []
  | i, x :: rest =>
    if dropped i then keepFrom dropped (i + 1) rest else x :: keepFrom dropped (i + 1) rest

section Keep

variable {dropped : Nat → Bool} {i : Nat} {list : List α} {x : α}

@[simp] theorem keepFrom_nil : keepFrom dropped i ([] : List α) = [] := rfl

theorem keepFrom_append (front back : List α) : keepFrom dropped i (front ++ back) =
    keepFrom dropped i front ++ keepFrom dropped (i + front.length) back := by
  induction front generalizing i with
  | nil => simp
  | cons x front ih =>
    rw [List.cons_append, keepFrom, keepFrom, ih, List.length_cons]
    rw [Nat.add_right_comm, ← Nat.add_assoc]
    split <;> rfl

theorem keepFrom_map (f : α → β) (list : List α) :
    keepFrom dropped i (list.map f) = (keepFrom dropped i list).map f := by
  induction list generalizing i with
  | nil => rfl
  | cons x list ih =>
    rw [List.map_cons, keepFrom, keepFrom, ih]
    split <;> rfl

theorem keepFrom_zip (first : List α) (second : List β) (length : first.length = second.length) :
    keepFrom dropped i (first.zip second) =
      (keepFrom dropped i first).zip (keepFrom dropped i second) := by
  induction first generalizing i second with
  | nil => rfl
  | cons x first ih =>
    cases second with
    | nil => cases length
    | cons y second =>
      rw [List.zip_cons_cons, keepFrom, keepFrom, keepFrom, ih second (Nat.succ.inj length)]
      split <;> rfl

/-- Lists of one length keep as many elements. -/
theorem keepFrom_length (first : List α) (second : List β) (length : first.length = second.length) :
    (keepFrom dropped i first).length = (keepFrom dropped i second).length := by
  have unit : ∀ {γ : Type} (list : List γ), (keepFrom dropped i list).length =
      (keepFrom dropped i (List.replicate list.length ())).length := by
    intro γ list
    rw [← List.length_map (f := fun _ => ()), ← keepFrom_map, List.map_const']
  rw [unit first, unit second, length]

theorem keepFrom_of_none (none : ∀ j, dropped j = false) (list : List α) :
    keepFrom dropped i list = list := by
  induction list generalizing i with
  | nil => rfl
  | cons x list ih => rw [keepFrom, none, ih, if_neg Bool.false_ne_true]

theorem keepFrom_sublist (list : List α) : (keepFrom dropped i list).Sublist list := by
  induction list generalizing i with
  | nil => exact .slnil
  | cons x list ih =>
    rw [keepFrom]
    split
    · exact ih.cons x
    · exact ih.cons_cons x

theorem mem_keepFrom {j : Nat} (isElem : list[j]? = some x) (kept : dropped (i + j) = false) :
    x ∈ keepFrom dropped i list := by
  induction list generalizing i j with
  | nil => simp at isElem
  | cons y list ih =>
    rw [keepFrom]
    cases j with
    | zero =>
      obtain rfl := Option.some.inj isElem
      rw [if_neg (by simpa using kept)]
      exact List.mem_cons_self
    | succ j =>
      have inside := ih (i := i + 1) isElem (by rwa [Nat.add_assoc, Nat.add_comm 1])
      split
      · exact inside
      · exact List.mem_cons_of_mem _ inside

/-- Removing the positions from the back to the front keeps the others. -/
theorem removeAt_take (dropped : Nat → Bool) {n : Nat} (short : n ≤ list.length) :
    removeAt ((List.range n).filter dropped).reverse list =
      some (keepFrom dropped 0 (list.take n) ++ list.drop n) := by
  induction n generalizing list with
  | zero => simp [removeAt]
  | succ n ih =>
    have inside : n < list.length := short
    rw [List.range_succ, List.filter_append, List.reverse_append,
      List.take_succ_eq_append_getElem inside, keepFrom_append, List.length_take,
      Nat.min_eq_left inside.le, Nat.zero_add]
    cases isDropped : dropped n with
    | false =>
      rw [List.filter_cons_of_neg (by simp [isDropped]), List.filter_nil, List.reverse_nil,
        List.nil_append, ih inside.le, List.drop_eq_getElem_cons inside]
      simp [keepFrom, isDropped]
    | true =>
      have shorter : n ≤ (list.eraseIdx n).length := by
        rw [List.length_eraseIdx_of_lt inside]
        omega
      rw [List.filter_cons_of_pos isDropped, List.filter_nil, List.reverse_singleton,
        List.singleton_append, removeAt, if_pos inside, ih shorter]
      have front : (list.eraseIdx n).take n = list.take n := by
        rw [List.eraseIdx_eq_take_drop_succ, List.take_left' (by simp [inside.le])]
      have back : (list.eraseIdx n).drop n = list.drop (n + 1) := by
        rw [List.eraseIdx_eq_take_drop_succ, List.drop_left' (by simp [inside.le])]
      rw [front, back]
      simp [keepFrom, isDropped]

theorem removeAt_eq (dropped : Nat → Bool) (list : List α) :
    removeAt ((List.range list.length).filter dropped).reverse list =
      some (keepFrom dropped 0 list) := by
  rw [removeAt_take dropped le_rfl, List.take_length, List.drop_length, List.append_nil]

end Keep

end AnonCompiler.Lib
