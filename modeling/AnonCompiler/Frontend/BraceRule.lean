import AnonCompiler.Frontend.Initializer
import Mathlib.Data.List.Infix

/-!
# The brace rule

`Places` says which expressions of an initializer initialize which elements: an expression
goes to the current position, a nested brace to the largest proper sub-array that starts
there, and what is left when the array is full is dropped.  Both enumerations follow it:
the sparse one lists the placed expressions, the dense one is the sparse one padded.
-/

set_option autoImplicit false

namespace AnonCompiler.Frontend

open AnonCompiler.Ir AnonCompiler.Lib

variable {Exp : Type}

/-! ## The rule -/

/-- `sub` is the shape of the largest proper sub-array starting at the position. -/
structure LargestAligned (shape sub : List Nat) (pos : Nat) : Prop where
  proper : sub <:+ shape.tail
  aligned : sub.prod ∣ pos
  largest : ∀ other, other <:+ shape.tail → other.prod ∣ pos → other <:+ sub

/-- A placed expression of a sub-array, as one of the array. -/
def shift (base : Nat) (entry : Nat × Exp) : Nat × Exp := (base + entry.1, entry.2)

/-- The list, from the given position on, initializes the given elements of an array. -/
inductive Places : List Nat → Nat → List (InitVal Exp) → List (Nat × Exp) → Prop where
  | done {shape : List Nat} {pos : Nat} : Places shape pos [] []
  | surplus {shape : List Nat} {pos : Nat} {rest : List (InitVal Exp)} (full : shape.prod ≤ pos) :
      Places shape pos rest []
  | scalar {shape : List Nat} {pos : Nat} {exp : Exp} {rest : List (InitVal Exp)}
      {entries : List (Nat × Exp)} (room : pos < shape.prod)
      (later : Places shape (pos + 1) rest entries) :
      Places shape pos (.normal exp :: rest) ((pos, exp) :: entries)
  | brace {shape sub : List Nat} {pos : Nat} {inner rest : List (InitVal Exp)}
      {within entries : List (Nat × Exp)} (room : pos < shape.prod)
      (largest : LargestAligned shape sub pos) (nested : Places sub 0 inner within)
      (later : Places shape (pos + sub.prod) rest entries) :
      Places shape pos (.array inner :: rest) (within.map (shift pos) ++ entries)

theorem LargestAligned.unique {shape sub sub' : List Nat} {pos : Nat}
    (first : LargestAligned shape sub pos) (second : LargestAligned shape sub' pos) :
    sub = sub' := by
  have into := second.largest sub first.proper first.aligned
  have back := first.largest sub' second.proper second.aligned
  exact into.eq_of_length (le_antisymm into.length_le back.length_le)

theorem LargestAligned.dvd {shape sub : List Nat} {pos : Nat}
    (largest : LargestAligned shape sub pos) : sub.prod ∣ shape.prod := by
  have suffix := largest.proper.trans (List.tail_suffix shape)
  obtain ⟨outer, rfl⟩ := suffix
  exact ⟨outer.prod, by rw [List.prod_append, Nat.mul_comm]⟩

/-- A sub-array that starts inside the array also ends inside. -/
theorem LargestAligned.fits {shape sub : List Nat} {pos : Nat}
    (largest : LargestAligned shape sub pos) (room : pos < shape.prod) :
    pos + sub.prod ≤ shape.prod := by
  obtain ⟨k, rfl⟩ := largest.aligned
  obtain ⟨count, whole⟩ := largest.dvd
  rw [whole] at room ⊢
  have below : k + 1 ≤ count := Nat.lt_of_mul_lt_mul_left room
  calc sub.prod * k + sub.prod = sub.prod * (k + 1) := by ring
    _ ≤ sub.prod * count := Nat.mul_le_mul_left _ below

section

variable {shape : List Nat} {pos : Nat} {initVals : List (InitVal Exp)}

theorem Places.unique {entries entries' : List (Nat × Exp)}
    (first : Places shape pos initVals entries) (second : Places shape pos initVals entries') :
    entries = entries' := by
  induction first generalizing entries' with
  | done => cases second <;> rfl
  | surplus full =>
    cases second with
    | done => rfl
    | surplus _ => rfl
    | scalar room | brace room => exact absurd room (Nat.not_lt.mpr full)
  | scalar room _ ih =>
    cases second with
    | surplus full => exact absurd room (Nat.not_lt.mpr full)
    | scalar _ later => rw [ih later]
  | brace room largest _ _ ihNested ihLater =>
    cases second with
    | surplus full => exact absurd room (Nat.not_lt.mpr full)
    | brace _ largest' nested later =>
      obtain rfl := largest.unique largest'
      rw [ihNested nested, ihLater later]

/-- The placed positions lie between the current one and the end of the array. -/
theorem Places.inside {entries : List (Nat × Exp)} (places : Places shape pos initVals entries) :
    ∀ entry ∈ entries, pos ≤ entry.1 ∧ entry.1 < shape.prod := by
  induction places with
  | done => simp
  | surplus _ => simp
  | scalar room _ ih =>
    intro entry member
    rcases List.mem_cons.mp member with rfl | member
    · exact ⟨le_rfl, room⟩
    · have := ih entry member
      omega
  | @brace _ _ pos _ _ _ _ room largest _ _ ihNested ihLater =>
    intro entry member
    have fits := largest.fits room
    rcases List.mem_append.mp member with member | member
    · obtain ⟨inner, isInner, rfl⟩ := List.mem_map.mp member
      have := ihNested inner isInner
      simp only [shift]
      omega
    · have := ihLater entry member
      omega

theorem Places.increasing {entries : List (Nat × Exp)}
    (places : Places shape pos initVals entries) :
    (entries.map Prod.fst).Pairwise (· < ·) := by
  induction places with
  | done => exact .nil
  | surplus _ => exact .nil
  | scalar _ later ih =>
    refine List.pairwise_cons.mpr ⟨?_, ih⟩
    intro position member
    obtain ⟨entry, isEntry, rfl⟩ := List.mem_map.mp member
    exact (later.inside entry isEntry).1
  | @brace _ sub pos _ _ within _ _ _ nested later ihNested ihLater =>
    rw [List.map_append, List.map_map, List.pairwise_append]
    refine ⟨?_, ihLater, ?_⟩
    · have shifted : Prod.fst ∘ (shift pos : Nat × Exp → Nat × Exp) = (pos + ·) ∘ Prod.fst := rfl
      rw [shifted, ← List.map_map, List.pairwise_map]
      exact ihNested.imp fun below => Nat.add_lt_add_left below pos
    · intro low isLow high isHigh
      obtain ⟨entry, isEntry, rfl⟩ := List.mem_map.mp isLow
      obtain ⟨entry', isEntry', rfl⟩ := List.mem_map.mp isHigh
      have := nested.inside entry isEntry
      have := later.inside entry' isEntry'
      simp only [Function.comp_apply, shift]
      omega

end

/-! ## The code picks the largest sub-array -/

theorem usize_some {n : Nat} (small : n < 2 ^ 64) : usize n = some n := if_pos small

/-- A product of positive factors overflows somewhere exactly when it is too large. -/
theorem foldlM_usize {dims : List Nat} (positive : ∀ dim ∈ dims, 0 < dim) {acc : Nat}
    (small : acc < 2 ^ 64) :
    dims.foldlM (fun acc dim => usize (acc * dim)) acc = usize (acc * dims.prod) := by
  induction dims generalizing acc with
  | nil => simp [usize_some small]
  | cons dim rest ih =>
    have restPositive := fun d member => positive d (List.mem_cons_of_mem dim member)
    rw [List.foldlM_cons, List.prod_cons, ← Nat.mul_assoc]
    by_cases fits : acc * dim < 2 ^ 64
    · rw [usize_some fits]
      exact ih restPositive fits
    · have grows := Nat.le_mul_of_pos_right (acc * dim) (List.prod_pos restPositive)
      rw [usize, usize, if_neg fits, if_neg (by omega)]
      rfl

theorem product_eq {dims : List Nat} (positive : ∀ dim ∈ dims, 0 < dim) :
    product dims = usize dims.prod := by
  rw [product, foldlM_usize positive (by decide), Nat.one_mul]

section Shape

variable {shape : List Nat} (positive : ∀ dim ∈ shape, 0 < dim) (small : shape.prod < 2 ^ 64)

include positive in
theorem positive_drop (k : Nat) : ∀ dim ∈ shape.drop k, 0 < dim :=
  fun dim member => positive dim (List.mem_of_mem_drop member)

include positive in
theorem prod_drop_le (k : Nat) : (shape.drop k).prod ≤ shape.prod :=
  Nat.le_of_dvd (List.prod_pos positive) (prod_drop_dvd shape k)

theorem prod_drop_dvd_prod_drop {i j : Nat} (le : i ≤ j) :
    (shape.drop j).prod ∣ (shape.drop i).prod := by
  have dvd := prod_drop_dvd (shape.drop i) (j - i)
  rwa [List.drop_drop, Nat.add_sub_cancel' le] at dvd

include positive small in
/-- The loop stops at the outermost dimension whose sub-arrays start at the cursor. -/
theorem alignedFrom_eq (cursor : Nat) {k : Nat} (inside : k ≤ shape.length)
    (aligned : (shape.drop k).prod ∣ cursor) :
    ∃ i ≤ k, alignedFrom cursor (shape.take k).zipIdx.reverse (shape.drop k).prod k = some i ∧
      (shape.drop i).prod ∣ cursor ∧ ∀ j < i, ¬ (shape.drop j).prod ∣ cursor := by
  induction k with
  | zero => exact ⟨0, le_rfl, by simp [alignedFrom], aligned, by simp⟩
  | succ k ih =>
    have lt : k < shape.length := inside
    have stride : (shape.drop (k + 1)).prod * shape[k] = (shape.drop k).prod := by
      rw [List.drop_eq_getElem_cons lt, List.prod_cons, Nat.mul_comm]
    have fits : (shape.drop k).prod < 2 ^ 64 := (prod_drop_le positive k).trans_lt small
    have split : (shape.take (k + 1)).zipIdx.reverse =
        (shape[k], k) :: (shape.take k).zipIdx.reverse := by
      rw [List.take_succ_eq_append_getElem lt, List.zipIdx_append]
      simp [Nat.min_eq_left lt.le]
    rw [split, alignedFrom, stride, usize_some fits]
    by_cases continues : (shape.drop k).prod ∣ cursor
    · obtain ⟨i, le, result⟩ := ih lt.le continues
      refine ⟨i, by omega, ?_⟩
      simpa [Nat.mod_eq_zero_of_dvd continues] using result
    · refine ⟨k + 1, le_rfl, ?_, aligned, ?_⟩
      · have : cursor % (shape.drop k).prod ≠ 0 := fun h => continues (Nat.dvd_of_mod_eq_zero h)
        simp [this]
      · intro j below starts
        exact continues ((prod_drop_dvd_prod_drop (Nat.le_of_lt_succ below)).trans starts)

include positive small in
theorem subShapeIdx_eq (cursor : Nat) :
    ∃ index, subShapeIdx shape cursor = some index ∧
      LargestAligned shape (shape.drop index) cursor := by
  obtain ⟨i, -, run, aligned, least⟩ :=
    alignedFrom_eq positive small cursor le_rfl (by simp)
  rw [List.take_length, List.drop_length, List.prod_nil] at run
  -- A suffix of the tail is what is left behind a positive number of dimensions.
  have suffixes : ∀ other, other <:+ shape.tail → other.prod ∣ cursor → ∀ index ≤ max i 1,
      other <:+ shape.drop index := by
    intro other proper starts index le
    obtain ⟨outer, split⟩ := proper
    have dropped : other = shape.drop (outer.length + 1) := by
      rw [← List.drop_tail, ← split, List.drop_left]
    have beyond : i ≤ outer.length + 1 := by
      by_contra before
      exact least _ (Nat.not_le.mp before) (dropped ▸ starts)
    have step := List.drop_suffix (outer.length + 1 - index) (shape.drop index)
    rwa [List.drop_drop, Nat.add_sub_cancel' (by omega), ← dropped] at step
  by_cases descend : i = 0 ∧ shape ≠ []
  · refine ⟨1, by simp [subShapeIdx, run, descend], List.drop_one ▸ List.suffix_rfl, ?_, ?_⟩
    · exact (prod_drop_dvd_prod_drop (Nat.zero_le 1)).trans (descend.1 ▸ aligned)
    · exact fun other proper starts => suffixes other proper starts 1 (le_max_right i 1)
  · refine ⟨i, by simp [subShapeIdx, run, descend], ?_, aligned, ?_⟩
    · by_cases empty : shape = []
      · simp [empty]
      · obtain ⟨j, rfl⟩ := Nat.exists_eq_succ_of_ne_zero fun zero => descend ⟨zero, empty⟩
        rw [Nat.succ_eq_add_one, ← List.drop_tail]
        exact List.drop_suffix j _
    · exact fun other proper starts => suffixes other proper starts i (le_max_left i 1)

end Shape

/-! ## The sparse enumeration -/

theorem shift_zero (entries : List (Nat × Exp)) : entries.map (shift 0) = entries :=
  List.map_id'' (fun entry => by rw [shift, Nat.zero_add]) entries

theorem map_shift_shift (base pos : Nat) (entries : List (Nat × Exp)) :
    (entries.map (shift pos)).map (shift base) = entries.map (shift (base + pos)) := by
  simp [shift, Nat.add_assoc]

mutual
theorem collectExplicitInitVals_eq (inner : List (InitVal Exp)) {shape : List Nat} (base : Nat)
    (positive : ∀ dim ∈ shape, 0 < dim) (small : base + shape.prod ≤ 2 ^ 64)
    (fits : shape.prod < 2 ^ 64) :
    ∃ entries, Places shape 0 inner entries ∧
      (InitVal.array inner).collectExplicitInitVals shape base =
        some (entries.map (shift base)) := by
  obtain ⟨entries, places, run⟩ :=
    collectItems_eq inner base 0 positive small fits
  refine ⟨entries, places, ?_⟩
  rw [InitVal.collectExplicitInitVals, product_eq positive, usize_some fits]
  exact run

theorem collectItems_eq (initVals : List (InitVal Exp)) {shape : List Nat} (base cursor : Nat)
    (positive : ∀ dim ∈ shape, 0 < dim) (small : base + shape.prod ≤ 2 ^ 64)
    (fits : shape.prod < 2 ^ 64) :
    ∃ entries, Places shape cursor initVals entries ∧
      InitVal.collectItems initVals shape base shape.prod cursor =
        some (entries.map (shift base)) := by
  match initVals with
  | [] => exact ⟨[], .done, rfl⟩
  | .normal exp :: rest =>
    by_cases full : shape.prod ≤ cursor
    · exact ⟨[], .surplus full, by simp [InitVal.collectItems, full]⟩
    · have room := Nat.not_le.mp full
      obtain ⟨entries, places, run⟩ := collectItems_eq rest base _ positive small fits
      refine ⟨(cursor, exp) :: entries, .scalar room places, ?_⟩
      rw [InitVal.collectItems, if_neg full]
      simp [usize_some (show base + cursor < 2 ^ 64 by omega),
        usize_some (show cursor + 1 < 2 ^ 64 by omega), run, shift]
  | .array inner :: rest =>
    by_cases full : shape.prod ≤ cursor
    · exact ⟨[], .surplus full, by simp [InitVal.collectItems, full]⟩
    · have room := Nat.not_le.mp full
      obtain ⟨index, picked, largest⟩ := subShapeIdx_eq positive fits cursor
      have inside := largest.fits room
      have subPositive := positive_drop positive index
      have subFits := (prod_drop_le positive index).trans_lt fits
      obtain ⟨within, nested, runNested⟩ :=
        collectExplicitInitVals_eq inner (base + cursor) subPositive (by omega) subFits
      obtain ⟨entries, places, run⟩ := collectItems_eq rest base _ positive small fits
      refine ⟨within.map (shift cursor) ++ entries, .brace room largest nested places, ?_⟩
      rw [InitVal.collectItems, if_neg full]
      simp [picked, usize_some (show base + cursor < 2 ^ 64 by omega), runNested,
        product_eq subPositive, usize_some subFits,
        usize_some (show cursor + (shape.drop index).prod < 2 ^ 64 by omega), run,
        map_shift_shift, -List.map_map]
end

/-- The sparse enumeration lists the expressions where the rule places them. -/
theorem explicitInitVals_eq (inner : List (InitVal Exp)) {shape : List Nat}
    (positive : ∀ dim ∈ shape, 0 < dim) (fits : shape.prod < 2 ^ 64) :
    ∃ entries, Places shape 0 inner entries ∧
      (InitVal.array inner).explicitInitVals shape = some entries := by
  obtain ⟨entries, places, run⟩ :=
    collectExplicitInitVals_eq inner 0 positive (by omega) fits
  exact ⟨entries, places, by rw [InitVal.explicitInitVals, run, shift_zero]⟩

/-! ## The dense enumeration -/

/-- The elements from `pos` on, with their expressions. -/
def padded (entries : List (Nat × Exp)) (pos count : Nat) : List (Option Exp) :=
  (List.range' pos count).map fun i => entries.lookup i

theorem lookup_eq_none {entries : List (Nat × Exp)} {i : Nat}
    (absent : ∀ entry ∈ entries, entry.1 ≠ i) : entries.lookup i = none := by
  rw [List.lookup_eq_none_iff]
  intro entry member
  exact bne_iff_ne.mpr (absent entry member).symm

theorem lookup_of_mem {entries : List (Nat × Exp)}
    (increasing : (entries.map Prod.fst).Pairwise (· < ·)) {entry : Nat × Exp}
    (member : entry ∈ entries) : entries.lookup entry.1 = some entry.2 := by
  induction entries with
  | nil => cases member
  | cons first rest ih =>
    have order := List.pairwise_cons.mp increasing
    rcases List.mem_cons.mp member with rfl | later
    · rw [List.lookup_cons, beq_self_eq_true]
    · have above := order.1 entry.1 (List.mem_map_of_mem later)
      rw [List.lookup_cons, beq_false_of_ne (by omega)]
      exact ih order.2 later

theorem lookup_shift (entries : List (Nat × Exp)) (base i : Nat) :
    (entries.map (shift base)).lookup (base + i) = entries.lookup i := by
  induction entries with
  | nil => rfl
  | cons entry rest ih =>
    have same : (base + i == base + entry.1) = (i == entry.1) := by
      rw [Bool.eq_iff_iff, beq_iff_eq, beq_iff_eq, Nat.add_left_cancel_iff]
    rw [List.map_cons, List.lookup_cons, List.lookup_cons, ih, shift, same]

theorem padded_nil (pos count : Nat) :
    padded ([] : List (Nat × Exp)) pos count = List.replicate count none := by
  simp [padded]

theorem padded_congr {entries entries' : List (Nat × Exp)} {pos count : Nat}
    (same : ∀ i, pos ≤ i → i < pos + count → entries.lookup i = entries'.lookup i) :
    padded entries pos count = padded entries' pos count := by
  apply List.map_congr_left
  intro i member
  have := List.mem_range'_1.mp member
  exact same i this.1 this.2

theorem padded_append (entries : List (Nat × Exp)) (pos count count' : Nat) :
    padded entries pos (count + count') =
      padded entries pos count ++ padded entries (pos + count) count' := by
  rw [padded, ← List.range'_append_1, List.map_append]
  rfl

theorem padded_shift (entries : List (Nat × Exp)) (pos count : Nat) :
    padded (entries.map (shift pos)) pos count = padded entries 0 count := by
  rw [padded, padded, List.range'_eq_map_range, List.range'_eq_map_range, List.map_map,
    List.map_map]
  apply List.map_congr_left
  intro i _
  simp [lookup_shift]

theorem padded_length (entries : List (Nat × Exp)) (pos count : Nat) :
    (padded entries pos count).length = count := by
  simp [padded]

theorem padded_scalar {entries : List (Nat × Exp)} {pos : Nat} (exp : Exp) (count : Nat) :
    padded ((pos, exp) :: entries) pos (count + 1) =
      some exp :: padded entries (pos + 1) count := by
  rw [padded, List.range'_succ, List.map_cons]
  congr 1
  · simp
  · apply List.map_congr_left
    intro i member
    have above := (List.mem_range'_1.mp member).1
    rw [List.lookup_cons, beq_false_of_ne (by omega)]

theorem padded_brace {sub shape : List Nat} {pos : Nat} {inner rest : List (InitVal Exp)}
    {within entries : List (Nat × Exp)} (nested : Places sub 0 inner within)
    (later : Places shape (pos + sub.prod) rest entries) (count : Nat) :
    padded (within.map (shift pos) ++ entries) pos (sub.prod + count) =
      padded within 0 sub.prod ++ padded entries (pos + sub.prod) count := by
  rw [padded_append, ← padded_shift within pos]
  congr 1
  · apply padded_congr
    intro i _ below
    have absent : entries.lookup i = none := by
      apply lookup_eq_none
      intro entry member
      have := later.inside entry member
      omega
    rw [List.lookup_append, absent, Option.or_none]
  · apply padded_congr
    intro i above _
    have absent : (within.map (shift pos)).lookup i = none := by
      apply lookup_eq_none
      intro entry member
      obtain ⟨inside, isInside, rfl⟩ := List.mem_map.mp member
      have := nested.inside inside isInside
      simp only [shift]
      omega
    rw [List.lookup_append, absent, Option.none_or]

theorem resize_eq {capacity : Nat} {v : List (Option Exp)} (le : v.length ≤ capacity) :
    InitVal.resize capacity v = v ++ List.replicate (capacity - v.length) none := by
  rw [InitVal.resize, List.take_of_length_le le]

theorem withCapacity_some {capacity : Nat} (small : capacity < 2 ^ 60) :
    withCapacity capacity = some () :=
  if_pos (by rw [pointerSize]; omega)

mutual
/-- The dense enumeration is the sparse one with the other elements filled in. -/
theorem initValShape_eq (inner : List (InitVal Exp)) {shape : List Nat}
    (positive : ∀ dim ∈ shape, 0 < dim) (fits : shape.prod < 2 ^ 60) :
    ∃ entries, Places shape 0 inner entries ∧
      (InitVal.array inner).initValShape shape = some (padded entries 0 shape.prod) := by
  obtain ⟨entries, places, w, run, le, filled⟩ :=
    shapeItems_eq inner [] positive fits (Nat.zero_le _)
  rw [List.nil_append] at run
  rw [List.length_nil, Nat.sub_zero] at filled
  refine ⟨entries, places, ?_⟩
  rw [InitVal.initValShape, product_eq positive, usize_some (by omega)]
  simp [withCapacity_some fits, run, resize_eq (show w.length ≤ shape.prod by simpa using le),
    filled]

theorem shapeItems_eq (initVals : List (InitVal Exp)) (v : List (Option Exp)) {shape : List Nat}
    (positive : ∀ dim ∈ shape, 0 < dim) (fits : shape.prod < 2 ^ 60)
    (bounded : v.length ≤ shape.prod) :
    ∃ entries, Places shape v.length initVals entries ∧
      ∃ w, InitVal.shapeItems initVals shape shape.prod v = some (v ++ w) ∧
        v.length + w.length ≤ shape.prod ∧
        w ++ List.replicate (shape.prod - v.length - w.length) none =
          padded entries v.length (shape.prod - v.length) := by
  match initVals with
  | [] => exact ⟨[], .done, [], by simp [InitVal.shapeItems], bounded, by simp [padded_nil]⟩
  | .normal exp :: rest =>
    by_cases full : shape.prod ≤ v.length
    · exact ⟨[], .surplus full, [], by simp [InitVal.shapeItems, full], bounded,
        by simp [padded_nil]⟩
    · have room := Nat.not_le.mp full
      obtain ⟨entries, places, w, run, le, filled⟩ :=
        shapeItems_eq rest (v ++ [some exp]) positive fits (by simpa using room)
      rw [List.length_append, List.length_singleton] at places le filled
      refine ⟨(v.length, exp) :: entries, .scalar room places, some exp :: w, ?_, ?_, ?_⟩
      · rw [InitVal.shapeItems, if_neg full]
        simpa using run
      · rw [List.length_cons]
        omega
      · have count : shape.prod - v.length = shape.prod - (v.length + 1) + 1 := by omega
        rw [count, padded_scalar, ← filled, List.length_cons, Nat.add_sub_add_right]
        rfl
  | .array inner :: rest =>
    by_cases full : shape.prod ≤ v.length
    · exact ⟨[], .surplus full, [], by simp [InitVal.shapeItems, full], bounded,
        by simp [padded_nil]⟩
    · have room := Nat.not_le.mp full
      obtain ⟨index, picked, largest⟩ := subShapeIdx_eq positive (by omega) v.length
      have inside := largest.fits room
      obtain ⟨within, nested, runNested⟩ := initValShape_eq inner (positive_drop positive index)
        ((prod_drop_le positive index).trans_lt fits)
      obtain ⟨entries, places, w, run, le, filled⟩ :=
        shapeItems_eq rest (v ++ padded within 0 (shape.drop index).prod) positive fits
          (by simpa [padded_length] using inside)
      rw [List.length_append, padded_length] at places le filled
      refine ⟨within.map (shift v.length) ++ entries, .brace room largest nested places,
        padded within 0 (shape.drop index).prod ++ w, ?_, ?_, ?_⟩
      · rw [InitVal.shapeItems, if_neg full]
        simpa [picked, runNested] using run
      · rw [List.length_append, padded_length]
        omega
      · have count : shape.prod - v.length =
            (shape.drop index).prod + (shape.prod - (v.length + (shape.drop index).prod)) := by
          omega
        rw [count, padded_brace nested places, ← filled, List.append_assoc, List.length_append,
          padded_length, Nat.add_sub_add_left]
end

end AnonCompiler.Frontend
