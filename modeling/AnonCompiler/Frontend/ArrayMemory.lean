import AnonCompiler.Frontend.BraceRule

/-!
# The memory of a local array

The code of a local definition clears the array, evaluates every explicit expression once
and in order, and stores its word where the brace rule places it.
-/

set_option autoImplicit false

namespace AnonCompiler.Frontend

open AnonCompiler.Ir AnonCompiler.Lib

variable {Exp σ : Type}

/-! ## Words of an object -/

/-- The first `count` words of the object are the given ones. -/
def HoldsWords (m : Mem) (obj : Obj) (count : Nat) (word : Nat → BitVec 32) : Prop :=
  ∀ i < count, m.bytesAt obj (4 * i) 4 = wordBytes (word i)

variable {m : Mem} {obj : Obj} {count : Nat} {dims : List Nat}

theorem bytesAt_add (m : Mem) (obj : Obj) (off count count' : Nat) :
    m.bytesAt obj off (count + count') =
      m.bytesAt obj off count ++ m.bytesAt obj (off + count) count' := by
  simp [Mem.bytesAt, List.range_add, Nat.add_assoc]

theorem HoldsWords.bytesAt_eq {word : Nat → BitVec 32} (holds : HoldsWords m obj count word) :
    m.bytesAt obj 0 (4 * count) = (List.range count).flatMap fun i => wordBytes (word i) := by
  induction count with
  | zero => rfl
  | succ count ih =>
    have before := ih fun i lt => holds i (Nat.lt_succ_of_lt lt)
    rw [Nat.mul_succ, bytesAt_add, before, Nat.zero_add, holds count (Nat.lt_succ_self count),
      List.range_succ, List.flatMap_append]
    simp

theorem holdsWords_zero :
    HoldsWords (m.overwrite obj 0 (zeroBytes (4 * count))) obj count fun _ => 0 := by
  intro i lt
  apply List.ext_getElem
  · simp [Mem.bytesAt, wordBytes]
  · intro k inBytes inWord
    have k4 : k < 4 := by simpa [Mem.bytesAt] using inBytes
    have inside : 4 * i + k < 4 * count := by omega
    have zero : (wordBytes 0)[k] = .byte 0 := by
      interval_cases k <;> rfl
    refine Eq.trans ?_ zero.symm
    simp [Mem.bytesAt, Mem.overwrite, zeroBytes, inside]

theorem HoldsWords.store {m : Mem} {obj : Obj} {count : Nat} {word : Nat → BitVec 32}
    (holds : HoldsWords m obj count word) (pos : Nat) (v : BitVec 32) :
    HoldsWords (m.overwrite obj (4 * pos) (wordBytes v)) obj count
      (Function.update word pos v) := by
  intro i lt
  have four : (wordBytes v).length = 4 := rfl
  by_cases here : i = pos
  · subst here
    rw [Function.update_self]
    exact Mem.overwrite_same
  · rw [Function.update_of_ne here, Mem.overwrite_apart (.inr (by omega)), holds i lt]

/-! ## Element addresses -/

theorem arrayTy_size (bType : BType) (dims : List Nat) :
    (arrayTy bType dims).size = 4 * dims.prod := by
  induction dims with
  | nil => cases bType <;> rfl
  | cons dim inner ih =>
    have step : arrayTy bType (dim :: inner) = .array (arrayTy bType inner) dim := rfl
    rw [step, Ty.size, ih, List.prod_cons]
    ring

theorem toInt_ofNat {index : Nat} (small : index < 2 ^ 31) :
    (BitVec.ofNat 32 index).toInt = index := by
  rw [BitVec.toInt_eq_toNat_of_lt] <;> rw [BitVec.toNat_ofNat] <;> omega

/-- The offset of indices into an array. -/
theorem gepOffset_arrayTy (bType : BType) {indices : List Nat}
    (inside : List.Forall₂ (· < ·) indices dims) (isI32 : ∀ dim ∈ dims, dim < 2 ^ 31) :
    gepOffset (arrayTy bType dims) ((indices.map (BitVec.ofNat 32)).map BitVec.toInt) =
      some ((4 * position dims indices : Nat) : Int) := by
  induction inside with
  | nil => rfl
  | @cons index dim indices inner below _ ih =>
    have step : arrayTy bType (dim :: inner) = .array (arrayTy bType inner) dim := rfl
    have small : index < 2 ^ 31 := below.trans (isI32 dim List.mem_cons_self)
    have tail := ih fun d member => isI32 d (List.mem_cons_of_mem dim member)
    rw [step, List.map_cons, List.map_cons, gepOffset, Ty.element]
    simp only [tail, Option.map_some, Option.some.injEq, arrayTy_size, position, toInt_ofNat small]
    push_cast
    ring

/-- The offset of the element at a flat position. -/
theorem localArrayElementPtr_offset (bType : BType) (shape : ArrayShape) {pos : Nat}
    (inside : pos < shape.dims.prod) :
    gepOffset (.pointer (arrayTy bType shape.dims))
      ((localArrayElementPtr shape.dims pos).map BitVec.toInt) = some ((4 * pos : Nat) : Int) := by
  have below : List.Forall₂ (· < ·) (digits shape.dims.reverse pos).reverse shape.dims := by
    have positive : ∀ dim ∈ shape.dims.reverse, 0 < dim :=
      fun dim member => shape.positive dim (List.mem_reverse.mp member)
    rw [← List.forall₂_reverse_iff, List.reverse_reverse]
    exact digits_lt positive pos
  rw [localArrayElementPtr, List.map_cons, gepOffset, Ty.element]
  simp only [gepOffset_arrayTy bType below shape.isI32, position_digits, Nat.mod_eq_of_lt inside]
  simp

/-! ## The code of a local definition -/

/-- The words the expressions evaluate to, one expression after the other. -/
def evaluateAll (eval : Exp → σ → BitVec 32 × σ) :
    List (Nat × Exp) → σ → List (Nat × BitVec 32) × σ
  | [], s => ([], s)
  | entry :: rest, s =>
    ((entry.1, (eval entry.2 s).1) :: (evaluateAll eval rest (eval entry.2 s).2).1,
      (evaluateAll eval rest (eval entry.2 s).2).2)

/-- The words of an array, where those without an expression are as before. -/
def wordAt (words : List (Nat × BitVec 32)) (before : Nat → BitVec 32) (i : Nat) : BitVec 32 :=
  (words.lookup i).getD (before i)

theorem evaluateAll_positions (eval : Exp → σ → BitVec 32 × σ) (entries : List (Nat × Exp))
    (s : σ) : (evaluateAll eval entries s).1.map Prod.fst = entries.map Prod.fst := by
  induction entries generalizing s with
  | nil => rfl
  | cons entry rest ih => simp [evaluateAll, ih]

theorem encode_val (bType : BType) (word : BitVec 32) :
    encode bType.ty (bType.val word) = wordBytes word := by
  cases bType <;> rfl

section Local

variable (bType : BType) (shape : ArrayShape) {obj : Obj} (eval : Exp → σ → BitVec 32 × σ)

variable {m : Mem} {entries : List (Nat × Exp)}

theorem run_store {entry : Nat × Exp} (inside : entry.1 < shape.dims.prod) (s : σ)
    (size : m.size obj = some (4 * shape.dims.prod)) :
    LocalInit.run bType shape.dims obj eval (s, m) (storeEntry shape.dims entry) =
      some ((eval entry.2 s).2, m.overwrite obj (4 * entry.1) (wordBytes (eval entry.2 s).1)) := by
  have valid : m.Valid ⟨obj, ((4 * entry.1 : Nat) : Int)⟩
      (wordBytes (eval entry.2 s).1).length := by
    have four : (wordBytes (eval entry.2 s).1).length = 4 := rfl
    refine ⟨_, size, Int.natCast_nonneg _, ?_⟩
    rw [four]
    show ((4 * entry.1 : Nat) : Int) + 4 ≤ ((4 * shape.dims.prod : Nat) : Int)
    omega
  have written : m.write ⟨obj, ((4 * entry.1 : Nat) : Int)⟩ (wordBytes (eval entry.2 s).1) =
      some (m.overwrite obj (4 * entry.1) (wordBytes (eval entry.2 s).1)) := by
    rw [Mem.write, if_pos valid, Int.toNat_natCast]
  simp only [storeEntry, LocalInit.run, localArrayElementPtr_offset bType shape inside, encode_val,
    Option.bind_eq_bind, Option.bind_some, written]

/-- The stores of the code, in order. -/
theorem run_stores (inside : ∀ entry ∈ entries, entry.1 < shape.dims.prod)
    (distinct : (entries.map Prod.fst).Nodup) (s : σ)
    (size : m.size obj = some (4 * shape.dims.prod)) {word : Nat → BitVec 32}
    (holds : HoldsWords m obj shape.dims.prod word) :
    ∃ m', runLocal bType shape.dims obj eval (entries.map (storeEntry shape.dims)) (s, m) =
        some ((evaluateAll eval entries s).2, m') ∧
      HoldsWords m' obj shape.dims.prod (wordAt (evaluateAll eval entries s).1 word) := by
  induction entries generalizing s m word with
  | nil =>
    refine ⟨m, rfl, ?_⟩
    simpa [evaluateAll, wordAt, HoldsWords] using holds
  | cons entry rest ih =>
    have fresh := List.nodup_cons.mp distinct
    have here := run_store bType shape eval (inside entry List.mem_cons_self) s size
    obtain ⟨m', run, after⟩ := ih (fun e member => inside e (List.mem_cons_of_mem entry member))
      fresh.2 (eval entry.2 s).2 (m := m.overwrite obj (4 * entry.1) _) size
      (holds.store entry.1 (eval entry.2 s).1)
    refine ⟨m', ?_, ?_⟩
    · rw [List.map_cons, runLocal, List.foldlM_cons, here]
      exact run
    · intro i lt
      rw [after i lt]
      congr 1
      simp only [wordAt, evaluateAll, List.lookup_cons]
      by_cases first : i = entry.1
      · subst first
        have absent : (evaluateAll eval rest (eval entry.2 s).2).1.lookup entry.1 = none := by
          apply lookup_eq_none
          intro e member equal
          refine fresh.1 ?_
          rw [← evaluateAll_positions eval rest (eval entry.2 s).2, ← equal]
          exact List.mem_map_of_mem member
        simp [absent]
      · rw [Function.update_of_ne first, beq_false_of_ne first]

/-- The code of a local definition, run from any state. -/
theorem run_convert {initVals : List (InitVal Exp)} (places : Places shape.dims 0 initVals entries)
    (s : σ) (size : m.size obj = some (4 * shape.dims.prod)) :
    ∃ m', runLocal bType shape.dims obj eval
        (.memZero (4 * shape.dims.prod) :: entries.map (storeEntry shape.dims)) (s, m) =
          some ((evaluateAll eval entries s).2, m') ∧
      HoldsWords m' obj shape.dims.prod (wordAt (evaluateAll eval entries s).1 fun _ => 0) := by
  have valid : m.Valid ⟨obj, 0⟩ (zeroBytes (4 * shape.dims.prod)).length :=
    ⟨_, size, le_rfl, by simp [zeroBytes]⟩
  have cleared : LocalInit.run bType shape.dims obj eval (s, m)
      (.memZero (4 * shape.dims.prod)) =
        some (s, m.overwrite obj 0 (zeroBytes (4 * shape.dims.prod))) := by
    rw [LocalInit.run, Mem.write, if_pos valid]
    rfl
  have inside : ∀ entry ∈ entries, entry.1 < shape.dims.prod :=
    fun entry member => (places.inside entry member).2
  have distinct : (entries.map Prod.fst).Nodup := places.increasing.imp Nat.ne_of_lt
  obtain ⟨m', run, holds⟩ := run_stores bType shape eval inside distinct s
    (m := m.overwrite obj 0 (zeroBytes (4 * shape.dims.prod))) size holdsWords_zero
  refine ⟨m', ?_, holds⟩
  rw [runLocal, List.foldlM_cons, cleared]
  exact run

end Local

theorem usizeSize_arrayTy (bType : BType) (positive : ∀ dim ∈ dims, 0 < dim) :
    usizeSize (arrayTy bType dims) = usize (4 * dims.prod) := by
  induction dims with
  | nil => cases bType <;> rfl
  | cons dim inner ih =>
    have step : arrayTy bType (dim :: inner) = .array (arrayTy bType inner) dim := rfl
    have size : 4 * (dim :: inner).prod = 4 * inner.prod * dim := by
      rw [List.prod_cons]
      ring
    rw [step, usizeSize, ih fun d member => positive d (List.mem_cons_of_mem dim member), size]
    by_cases fits : 4 * inner.prod < 2 ^ 64
    · rw [usize_some fits, Option.bind_some]
    · have grows := Nat.le_mul_of_pos_right (4 * inner.prod) (positive dim List.mem_cons_self)
      rw [usize, usize, if_neg fits, if_neg (by omega), Option.bind_none]

theorem convert_eq (bType : BType) (shape : ArrayShape) (initVals : List (InitVal Exp))
    (fits : 4 * shape.dims.prod < 2 ^ 64) :
    ∃ entries, Places shape.dims 0 initVals entries ∧
      convert bType shape.dims (.array initVals) =
        some (.memZero (4 * shape.dims.prod) :: entries.map (storeEntry shape.dims)) := by
  obtain ⟨entries, places, run⟩ := explicitInitVals_eq initVals shape.positive (by omega)
  refine ⟨entries, places, ?_⟩
  simp [convert, usizeSize_arrayTy bType shape.positive, usize_some fits, run]

end AnonCompiler.Frontend
