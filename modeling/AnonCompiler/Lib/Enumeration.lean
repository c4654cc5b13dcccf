import Mathlib.Data.List.Forall2
import Mathlib.Logic.Function.Basic

/-!
# Tables over lists

Three ways in which a program goes through a list: it applies a function that may
fail to every element (`mapM`), it collects the positions of the elements in a map
(`indexMap`), and it lays out lists one after the other and remembers where each
begins and ends (`ranges`).
-/

set_option autoImplicit false

namespace AnonCompiler.Lib

/-! ## A function that may fail -/

section MapM

variable {α β : Type} {f : α → Option β} {list : List α}

theorem forall₂_of_mapM {result : List β} (h : list.mapM f = some result) :
    List.Forall₂ (fun a b => f a = some b) list result := by
  induction list generalizing result with
  | nil =>
    obtain rfl : result = [] := by simpa using h.symm
    exact .nil
  | cons first rest ih =>
    simp only [List.mapM_cons, Option.bind_eq_bind, Option.bind_eq_some_iff, Option.pure_def,
      Option.some.injEq] at h
    obtain ⟨b, hb, bs, hbs, rfl⟩ := h
    exact .cons hb (ih hbs)

theorem mapM_isSome (h : ∀ a ∈ list, ∃ b, f a = some b) : ∃ result, list.mapM f = some result := by
  induction list with
  | nil => exact ⟨[], rfl⟩
  | cons first rest ih =>
    obtain ⟨b, hb⟩ := h first (by simp)
    obtain ⟨bs, hbs⟩ := ih fun a member => h a (by simp [member])
    exact ⟨b :: bs, by simp [hb, hbs]⟩

theorem mapM_some {g : α → β} (each : ∀ a ∈ list, f a = some (g a)) :
    list.mapM f = some (list.map g) := by
  induction list with
  | nil => rfl
  | cons a rest ih =>
    simp [List.mapM_cons, each a List.mem_cons_self,
      ih fun b member => each b (List.mem_cons_of_mem a member)]

theorem mem_of_mapM {result : List β} {b : β}
    (h : list.mapM f = some result) (member : b ∈ result) : ∃ a ∈ list, f a = some b := by
  have pairs := forall₂_of_mapM h
  clear h
  induction pairs with
  | nil => cases member
  | @cons a b' list result found _ ih =>
    rcases List.mem_cons.mp member with rfl | later
    · exact ⟨a, List.mem_cons_self, found⟩
    · obtain ⟨a', member', found'⟩ := ih later
      exact ⟨a', List.mem_cons_of_mem _ member', found'⟩

end MapM

/-! ## The positions of keys -/

section IndexMap

variable {α : Type} [DecidableEq α]

/-- A map from keys to their positions; of equal keys the last one counts. -/
def indexMap (keys : List α) : α → Option Nat :=
  keys.zipIdx.foldl (fun index entry => Function.update index entry.1 (some entry.2)) fun _ => none

theorem indexMap_iff {keys : List α} (nodup : keys.Nodup) {key : α} {i : Nat} :
    indexMap keys key = some i ↔ keys[i]? = some key := by
  have fold : ∀ (keys : List α) (k : Nat) (index : α → Option Nat), keys.Nodup →
      ((keys.zipIdx k).foldl (fun (index : α → Option Nat) entry =>
          Function.update index entry.1 (some entry.2)) index key = some i ↔
        (key, i) ∈ keys.zipIdx k ∨ key ∉ keys ∧ index key = some i) := by
    intro keys
    induction keys with
    | nil => simp
    | cons first keys ih =>
      intro k index nodup
      obtain ⟨fresh, nodup⟩ := List.nodup_cons.mp nodup
      rw [List.zipIdx_cons, List.foldl_cons, ih (k + 1) _ nodup, List.mem_cons]
      by_cases same : key = first
      · subst same
        have notLater : (key, i) ∉ keys.zipIdx (k + 1) := fun later =>
          fresh (List.fst_mem_of_mem_zipIdx later)
        simp [notLater, fresh, eq_comm]
      · simp [same]
  refine (fold keys 0 (fun _ => none) nodup).trans ?_
  simp [List.mk_mem_zipIdx_iff_getElem?]

end IndexMap

/-! ## Lists laid out one after the other -/

section Ranges

variable {β : Type}

/-- Where each list begins and ends in their concatenation. -/
def ranges (start : Nat) : List (List β) → List (Nat × Nat)
  | [] => []
  | piece :: pieces => (start, start + piece.length) :: ranges (start + piece.length) pieces

theorem length_ranges (start : Nat) (pieces : List (List β)) :
    (ranges start pieces).length = pieces.length := by
  induction pieces generalizing start with
  | nil => rfl
  | cons piece pieces ih => simp [ranges, ih]

/-- What lies in a range is the list it was made for. -/
theorem extract_ranges {pieces : List (List β)} {i : Nat} {piece : List β}
    (atI : pieces[i]? = some piece) : ∃ range, (ranges 0 pieces)[i]? = some range ∧
      pieces.flatten.extract range.1 range.2 = piece := by
  have from_start : ∀ (pieces : List (List β)) (before : List β) (i : Nat),
      pieces[i]? = some piece → ∃ range, (ranges before.length pieces)[i]? = some range ∧
        (before ++ pieces.flatten).extract range.1 range.2 = piece := by
    intro pieces
    induction pieces with
    | nil => simp
    | cons first pieces ih =>
      intro before i atI
      cases i with
      | zero =>
        obtain rfl : first = piece := Option.some.inj atI
        refine ⟨(before.length, before.length + first.length), rfl, ?_⟩
        simp [List.extract_eq_take_drop]
      | succ i =>
        obtain ⟨range, isRange, found⟩ := ih (before ++ first) i atI
        rw [List.length_append] at isRange
        refine ⟨range, isRange, ?_⟩
        rw [List.flatten_cons, ← List.append_assoc]
        exact found
  simpa using from_start pieces [] i atI

end Ranges

end AnonCompiler.Lib
