import AnonCompiler.Lib.BitPatterns
import AnonCompiler.Mir.Aarch64

/-!
# Integer constants on AArch64

The planner of `anon_armv8/src/constants.rs`: a constant is made of moves of 16-bit chunks
on a background of zeros or of ones, or of one logical immediate.  `none` stands for a
failed `expect`.  The steps have their architectural meaning, and the words are compared
bit by bit.
-/

set_option autoImplicit false

namespace AnonCompiler.Mir

open Lib.BitPatterns

/-! ## Immediates -/

structure MoveWideConst where
  bits : BitVec 16
  shift : Nat
deriving DecidableEq, Repr

def validShift (shift : Nat) : OperandSize → Bool
  | .size32 => shift = 0 || shift = 16
  | .size64 => shift = 0 || shift = 16 || shift = 32 || shift = 48

def MoveWideConst.new (bits : BitVec 16) (shift : Nat) (size : OperandSize) :
    Option MoveWideConst :=
  if validShift shift size then some ⟨bits, shift⟩ else none

def elementWidths : List Nat := [2, 4, 8, 16, 32, 64]

def isLogicalImmediate (value : BitVec 64) (size : OperandSize) : Bool :=
  let mask := lowMask 64 size.bits
  let value := value &&& mask
  if value = 0 ∨ value = mask then false
  else
    elementWidths.any fun elementWidth =>
      !(elementWidth > size.bits || size.bits % elementWidth ≠ 0) &&
        (List.range' 1 (elementWidth - 1)).any fun ones =>
          (List.range elementWidth).any fun rotate =>
            repeated size.bits elementWidth (rotateElement elementWidth (lowOnes 64 ones) rotate) =
              value

def truncateToSize (value : BitVec 64) : OperandSize → BitVec 64
  | .size32 => value &&& 0xffffffff
  | .size64 => value

def ImmLogic.new (value : BitVec 64) (size : OperandSize) : Option ImmLogic :=
  if isLogicalImmediate (truncateToSize value size) size then some ⟨truncateToSize value size, size⟩
  else none

/-! ## The plan -/

inductive ConstantStep where
  | zero
  | logical (imm : ImmLogic)
  | movZ (imm : MoveWideConst)
  | movN (imm : MoveWideConst)
  | movK (imm : MoveWideConst)
deriving DecidableEq, Repr

def chunkCount : OperandSize → Nat
  | .size32 => 2
  | .size64 => 4

def chunk (value : BitVec 64) (index : Nat) : BitVec 16 := (value >>> (index * 16)).setWidth 16

def chunks (value : BitVec 64) (size : OperandSize) : List (BitVec 16) :=
  (List.range (chunkCount size)).map (chunk value)

/-- The moves of the chunks that differ from the background, but for the first one. -/
def patches (chunks : List (BitVec 16)) (size : OperandSize) (seedIndex : Nat)
    (seedValue : BitVec 16) : Option (List ConstantStep) :=
  (chunks.zipIdx.filter fun (chunk, index) => index ≠ seedIndex ∧ chunk ≠ seedValue).mapM
    fun (chunk, index) => (MoveWideConst.new chunk (index * 16) size).map .movK

def seededPlan (chunks : List (BitVec 16)) (size : OperandSize) (useMovn : Bool) :
    Option (List ConstantStep) := do
  let seedValue := if useMovn then BitVec.allOnes 16 else 0
  let seedIndex ← chunks.findIdx? (· ≠ seedValue)
  let chunk ← chunks[seedIndex]?
  let seed ← MoveWideConst.new (if useMovn then ~~~chunk else chunk) (seedIndex * 16) size
  let rest ← patches chunks size seedIndex seedValue
  some ((if useMovn then .movN seed else .movZ seed) :: rest)

/-- The plan for a value that is not zero and fits the size. -/
def planNonzero (value : BitVec 64) (size : OperandSize) : Option (List ConstantStep) :=
  let chunks := chunks value size
  let zeroCost := chunks.countP (· ≠ 0)
  let onesCost := chunks.countP (· ≠ BitVec.allOnes 16)
  if zeroCost = 1 then do
    let index ← chunks.findIdx? (· ≠ 0)
    let chunk ← chunks[index]?
    let imm ← MoveWideConst.new chunk (index * 16) size
    some [.movZ imm]
  else if onesCost = 0 then do
    let imm ← MoveWideConst.new 0 0 size
    some [.movN imm]
  else if onesCost = 1 then do
    let index ← chunks.findIdx? (· ≠ BitVec.allOnes 16)
    let chunk ← chunks[index]?
    let imm ← MoveWideConst.new (~~~chunk) (index * 16) size
    some [.movN imm]
  else
    match ImmLogic.new value size with
    | some imm => some [.logical imm]
    | none => seededPlan chunks size (onesCost < zeroCost)

def planIntegerConstant (value : BitVec 64) (size : OperandSize) : Option (List ConstantStep) :=
  if truncateToSize value size = 0 then some [.zero]
  else planNonzero (truncateToSize value size) size

/-! ## The meaning of the steps -/

def MoveWideConst.word (imm : MoveWideConst) (size : OperandSize) : BitVec size.bits :=
  imm.bits.setWidth size.bits <<< imm.shift

/-- The destination after a step of the given width. -/
def ConstantStep.exec (size : OperandSize) (dst : Value) : ConstantStep → Value
  | .zero => Value.written (0 : BitVec size.bits)
  | .logical imm => Value.written (0 ||| imm.bits size)
  | .movZ imm => Value.written (imm.word size)
  | .movN imm => Value.written (~~~imm.word size)
  | .movK imm => Value.written
      ((dst.read size &&& ~~~((0xffff : BitVec size.bits) <<< imm.shift)) ||| imm.word size)

def execSteps (size : OperandSize) (dst : Value) (steps : List ConstantStep) : Value :=
  steps.foldl (ConstantStep.exec size) dst

/-- The architectural bitmask immediates: a run of ones, rotated inside an element and
repeated, and neither no bit nor all bits. -/
structure IsBitmask (value : BitVec 64) (size : OperandSize) : Prop where
  pattern : ∃ element ∈ elementWidths, element ≤ size.bits ∧ ∃ ones ≤ element, ∃ rotate < element,
    ∀ i < size.bits, value.getLsbD i = decide ((i + rotate) % element < ones)
  notZero : value.setWidth size.bits ≠ 0
  notOnes : value.setWidth size.bits ≠ BitVec.allOnes size.bits

section Sizes

variable (size : OperandSize)

theorem bits_le : size.bits ≤ 64 := by cases size <;> decide

theorem bits_eq : size.bits = 16 * chunkCount size := by cases size <;> rfl

theorem bits_dvd {element : Nat} (isWidth : element ∈ elementWidths) (le : element ≤ size.bits) :
    element ∣ size.bits := by
  simp only [elementWidths, List.mem_cons, List.not_mem_nil, or_false] at isWidth
  rcases isWidth with rfl | rfl | rfl | rfl | rfl | rfl <;> cases size <;> first
    | decide
    | exact absurd le (by decide)

theorem getLsbD_truncateToSize (value : BitVec 64) (i : Nat) :
    (truncateToSize value size).getLsbD i = (decide (i < size.bits) && value.getLsbD i) := by
  cases size with
  | size32 =>
    have mask : (0xffffffff : BitVec 64) = lowMask 64 32 := by decide
    rw [truncateToSize, mask, BitVec.getLsbD_and, getLsbD_lowMask (by decide), Bool.and_comm]
  | size64 =>
    rw [truncateToSize]
    by_cases inside : i < 64
    · rw [decide_eq_true inside, Bool.true_and]
    · rw [decide_eq_false inside, Bool.false_and,
        BitVec.getLsbD_of_ge _ _ (Nat.le_of_not_lt inside)]

theorem new_isSome {bits : BitVec 16} {index : Nat} (inside : index < chunkCount size) :
    MoveWideConst.new bits (index * 16) size = some ⟨bits, index * 16⟩ := by
  unfold MoveWideConst.new
  refine if_pos ?_
  cases size <;>
  · simp only [chunkCount, validShift, Bool.or_eq_true, decide_eq_true_eq] at inside ⊢
    omega

end Sizes

section Logical

variable {value : BitVec 64} {size : OperandSize}

variable {width : Nat}

/-- Masked words are equal if their low bits are. -/
theorem eq_masked_iff (fits : width ≤ 64) {word : BitVec 64}
    (inside : ∀ i, word.getLsbD i = true → i < width) :
    word = value &&& lowMask 64 width ↔ ∀ i < width, word.getLsbD i = value.getLsbD i := by
  constructor
  · rintro rfl i below
    rw [BitVec.getLsbD_and, getLsbD_lowMask fits, decide_eq_true below, Bool.and_true]
  · intro same
    refine BitVec.eq_of_getLsbD_eq fun i _ => ?_
    rw [BitVec.getLsbD_and, getLsbD_lowMask fits]
    by_cases below : i < width
    · rw [same i below, decide_eq_true below, Bool.and_true]
    · rw [decide_eq_false below, Bool.and_false, Bool.eq_false_iff]
      exact fun isSet => below (inside i isSet)

theorem setWidth_eq_iff {word : BitVec width} :
    value.setWidth width = word ↔ ∀ i < width, value.getLsbD i = word.getLsbD i := by
  constructor
  · rintro rfl i below
    rw [BitVec.getLsbD_setWidth, decide_eq_true below, Bool.true_and]
  · intro same
    refine BitVec.eq_of_getLsbD_eq fun i below => ?_
    rw [BitVec.getLsbD_setWidth, decide_eq_true below, Bool.true_and, same i below]

theorem masked_eq_iff (fits : width ≤ 64) {word : BitVec 64} {low : BitVec width}
    (inside : ∀ i, word.getLsbD i = true → i < width)
    (bits : ∀ i < width, word.getLsbD i = low.getLsbD i) :
    value &&& lowMask 64 width = word ↔ value.setWidth width = low := by
  rw [eq_comm, eq_masked_iff fits inside, setWidth_eq_iff]
  refine forall₂_congr fun i below => ?_
  rw [bits i below, eq_comm]

/-- The test finds exactly the bitmask immediates. -/
theorem isLogicalImmediate_iff : isLogicalImmediate value size = true ↔ IsBitmask value size := by
  have fits := bits_le size
  have isZero : value &&& lowMask 64 size.bits = 0 ↔ value.setWidth size.bits = 0 :=
    masked_eq_iff fits (by simp) (by simp)
  have isOnes : value &&& lowMask 64 size.bits = lowMask 64 size.bits ↔
      value.setWidth size.bits = BitVec.allOnes size.bits := by
    refine masked_eq_iff fits (fun i isSet => ?_) fun i below => ?_
    · rw [getLsbD_lowMask fits, decide_eq_true_eq] at isSet
      exact isSet
    · rw [getLsbD_lowMask fits, BitVec.getLsbD_allOnes]
  have found : ∀ {e ones rotate}, e ∈ elementWidths → e ≤ size.bits → ones < e → rotate < e →
      (repeated size.bits e (rotateElement e (lowOnes 64 ones) rotate) =
          value &&& lowMask 64 size.bits ↔
        ∀ i < size.bits, value.getLsbD i = decide ((i + rotate) % e < ones)) := by
    intro e ones rotate isWidth le run small
    have positive : 0 < size.bits := by cases size <;> decide
    have bits := getLsbD_pattern (bits_dvd size isWidth le) fits positive run small
    rw [eq_masked_iff fits fun i isSet => ?_]
    · refine forall₂_congr fun i below => ?_
      rw [bits, decide_eq_true below, Bool.true_and, eq_comm]
    · rw [bits, Bool.and_eq_true, decide_eq_true_eq] at isSet
      exact isSet.1
  unfold isLogicalImmediate
  simp only [isZero, isOnes]
  split
  · next trivialValue =>
      refine iff_of_false Bool.false_ne_true fun isBitmask => ?_
      exact trivialValue.elim isBitmask.notZero isBitmask.notOnes
  · next nontrivial =>
      obtain ⟨notZero, notOnes⟩ := not_or.mp nontrivial
      simp only [List.any_eq_true, Bool.and_eq_true, Bool.not_eq_true', Bool.or_eq_false_iff,
        decide_eq_false_iff_not, Nat.not_lt, not_not, List.mem_range'_1, List.mem_range,
        decide_eq_true_eq]
      constructor
      · rintro ⟨e, isWidth, ⟨le, -⟩, ones, ⟨atLeast, below⟩, rotate, small, same⟩
        have run : ones < e := by omega
        exact ⟨⟨e, isWidth, le, ones, Nat.le_of_lt run, rotate, small,
          (found isWidth le run small).mp same⟩, notZero, notOnes⟩
      · rintro ⟨⟨e, isWidth, le, ones, atMost, rotate, small, same⟩, -, -⟩
        have some : ones ≠ 0 := by
          rintro rfl
          refine notZero (setWidth_eq_iff.mpr fun i below => ?_)
          rw [same i below, decide_eq_false (Nat.not_lt_zero _)]
          simp
        have notAll : ones ≠ e := by
          rintro rfl
          refine notOnes (setWidth_eq_iff.mpr fun i below => ?_)
          rw [same i below, decide_eq_true (Nat.mod_lt _ (by omega)), BitVec.getLsbD_allOnes,
            decide_eq_true below]
        have run : ones < e := by omega
        exact ⟨e, isWidth, ⟨le, Nat.mod_eq_zero_of_dvd (bits_dvd size isWidth le)⟩, ones,
          ⟨by omega, by omega⟩, rotate, small, (found isWidth le run small).mpr same⟩

end Logical

/-! ## What the steps leave -/

section Steps

variable (value : BitVec 64) (size : OperandSize)

variable {pairs : List (BitVec 16 × Nat)} {useMovn : Bool} {seedIndex : Nat}

theorem getLsbD_chunk (index k : Nat) :
    (chunk value index).getLsbD k = (decide (k < 16) && value.getLsbD (index * 16 + k)) := by
  rw [chunk, BitVec.getLsbD_setWidth, BitVec.getLsbD_ushiftRight]

/-- The chunk that holds a bit. -/
theorem getLsbD_chunk_div (j : Nat) :
    (chunk value (j / 16)).getLsbD (j % 16) = value.getLsbD j := by
  rw [getLsbD_chunk, decide_eq_true (Nat.mod_lt j (by decide)), Bool.true_and, Nat.div_add_mod']

variable {size} {j : Nat}

theorem getLsbD_word (below : j < size.bits) (bits : BitVec 16) (index : Nat) :
    (MoveWideConst.word ⟨bits, index * 16⟩ size).getLsbD j =
      (decide (j / 16 = index) && bits.getLsbD (j % 16)) := by
  rw [MoveWideConst.word, BitVec.getLsbD_shiftLeft, BitVec.getLsbD_setWidth, decide_eq_true below,
    Bool.true_and]
  by_cases here : j / 16 = index
  · have after : ¬ j < index * 16 := by omega
    have inside : j - index * 16 < size.bits := by omega
    have low : j - index * 16 = j % 16 := by omega
    rw [decide_eq_true here, decide_eq_false after, decide_eq_true inside, low]
    simp
  · rw [decide_eq_false here, Bool.false_and]
    by_cases after : j < index * 16
    · rw [decide_eq_true after, Bool.not_true, Bool.false_and]
    · have high : 16 ≤ j - index * 16 := by omega
      rw [BitVec.getLsbD_of_ge bits _ high, Bool.and_false, Bool.and_false]

theorem getLsbD_hole (below : j < size.bits) (index : Nat) :
    ((0xffff : BitVec size.bits) <<< (index * 16)).getLsbD j = decide (j / 16 = index) := by
  have ones : (0xffff : BitVec size.bits) = (BitVec.allOnes 16).setWidth size.bits := by
    cases size <;> decide
  have word := getLsbD_word below (BitVec.allOnes 16) index
  rw [MoveWideConst.word] at word
  rw [ones, word, BitVec.getLsbD_allOnes, decide_eq_true (Nat.mod_lt j (by decide)), Bool.and_true]

/-- The first move puts one chunk on the background. -/
def seedStep (useMovn : Bool) (bits : BitVec 16) (index : Nat) : ConstantStep :=
  if useMovn then .movN ⟨~~~bits, index * 16⟩ else .movZ ⟨bits, index * 16⟩

theorem getLsbD_seedStep (below : j < size.bits) (useMovn : Bool) (index : Nat) (dst : Value) :
    (Value.read size ((seedStep useMovn (chunk value index) index).exec size dst)).getLsbD j =
      if j / 16 = index then value.getLsbD j else useMovn := by
  cases useMovn with
  | false =>
    simp only [seedStep, Bool.false_eq_true, if_false, ConstantStep.exec, Value.read_written,
      getLsbD_word below]
    split
    · next here => rw [← here, getLsbD_chunk_div, decide_eq_true rfl, Bool.true_and]
    · next elsewhere => rw [decide_eq_false elsewhere, Bool.false_and]
  | true =>
    simp only [seedStep, if_true, ConstantStep.exec, Value.read_written, BitVec.getLsbD_not,
      getLsbD_word below, decide_eq_true below, Bool.true_and]
    split
    · next here =>
        have low : j % 16 < 16 := Nat.mod_lt j (by decide)
        rw [← here, getLsbD_chunk_div, decide_eq_true rfl, decide_eq_true low]
        simp
    · next elsewhere => rw [decide_eq_false elsewhere, Bool.false_and, Bool.not_false]

/-- A patch replaces one chunk. -/
theorem getLsbD_patch (below : j < size.bits) (index : Nat) (dst : Value) :
    (Value.read size (ConstantStep.exec size dst (.movK ⟨chunk value index, index * 16⟩))).getLsbD
      j =
      if j / 16 = index then value.getLsbD j else (dst.read size).getLsbD j := by
  simp only [ConstantStep.exec, Value.read_written, BitVec.getLsbD_or, BitVec.getLsbD_and,
    BitVec.getLsbD_not, getLsbD_hole below, getLsbD_word below, decide_eq_true below, Bool.true_and]
  split
  · next here =>
      rw [decide_eq_true here, ← here, getLsbD_chunk_div]
      simp
  · next elsewhere =>
      rw [decide_eq_false elsewhere]
      simp

/-- The patches replace their chunks. -/
theorem getLsbD_patches (below : j < size.bits)
    (areChunks : ∀ pair ∈ pairs, pair.1 = chunk value pair.2) (dst : Value) :
    (Value.read size (execSteps size dst
        (pairs.map fun pair => .movK ⟨pair.1, pair.2 * 16⟩))).getLsbD j =
      if j / 16 ∈ pairs.map Prod.snd then value.getLsbD j else (dst.read size).getLsbD j := by
  induction pairs generalizing dst with
  | nil => simp [execSteps]
  | cons pair pairs ih =>
    have isChunk := areChunks pair List.mem_cons_self
    have later := ih (fun p member => areChunks p (List.mem_cons_of_mem _ member))
      (ConstantStep.exec size dst (.movK ⟨pair.1, pair.2 * 16⟩))
    rw [execSteps] at later
    rw [execSteps, List.map_cons, List.foldl_cons, later, isChunk, getLsbD_patch value below,
      List.map_cons]
    by_cases again : j / 16 ∈ pairs.map Prod.snd
    · simp [again]
    · simp [again]

theorem mem_zipIdx_chunks {pair : BitVec 16 × Nat} :
    pair ∈ (chunks value size).zipIdx ↔ pair.2 < chunkCount size ∧ pair.1 = chunk value pair.2 := by
  rw [List.mem_zipIdx_iff_getElem?, chunks, List.getElem?_map, Option.map_eq_some_iff]
  constructor
  · rintro ⟨k, isK, isChunk⟩
    obtain ⟨below, rfl⟩ := List.getElem?_eq_some_iff.mp isK
    rw [List.getElem_range] at isChunk
    rw [List.length_range] at below
    exact ⟨below, isChunk.symm⟩
  · rintro ⟨below, isChunk⟩
    exact ⟨pair.2, List.getElem?_range below, isChunk.symm⟩

theorem mapM_eq_some_map {α β : Type} {f : α → Option β} {g : α → β} {list : List α}
    (each : ∀ x ∈ list, f x = some (g x)) : list.mapM f = some (list.map g) := by
  induction list with
  | nil => rfl
  | cons x list ih =>
    have rest := ih fun y member => each y (List.mem_cons_of_mem _ member)
    simp [List.mapM_cons, each x List.mem_cons_self, rest]

/-- Every chunk that differs from the background, but for the first one, is patched. -/
theorem patches_eq (seedIndex : Nat) (seedValue : BitVec 16) :
    ∃ pairs : List (BitVec 16 × Nat), patches (chunks value size) size seedIndex seedValue =
        some (pairs.map fun pair => .movK ⟨pair.1, pair.2 * 16⟩) ∧
      (∀ pair : BitVec 16 × Nat, pair ∈ pairs ↔ pair.2 < chunkCount size ∧
        pair.1 = chunk value pair.2 ∧ pair.2 ≠ seedIndex ∧ pair.1 ≠ seedValue) ∧
      (seedIndex < chunkCount size → pairs.length < chunkCount size) := by
  refine ⟨_, mapM_eq_some_map fun pair member => ?_, fun pair => ?_, fun inside => ?_⟩
  · obtain ⟨below, -⟩ := (mem_zipIdx_chunks value).mp (List.mem_filter.mp member).1
    obtain ⟨bits, index⟩ := pair
    simp only [new_isSome size below, Option.map_some]
  · rw [List.mem_filter, mem_zipIdx_chunks, decide_eq_true_eq, and_assoc]
  · have whole : (chunks value size).zipIdx.length = chunkCount size := by
      simp [chunks]
    have member : (chunk value seedIndex, seedIndex) ∈ (chunks value size).zipIdx :=
      (mem_zipIdx_chunks value).mpr ⟨inside, rfl⟩
    rw [← whole]
    refine List.length_filter_lt_length_iff_exists.mpr ⟨_, member, ?_⟩
    simp

/-- The seed and the patches leave the value. -/
theorem execSteps_seeded (areChunks : ∀ pair ∈ pairs, pair.1 = chunk value pair.2)
    (others : ∀ index < chunkCount size, index ≠ seedIndex → index ∉ pairs.map Prod.snd →
    chunk value index = if useMovn then BitVec.allOnes 16 else 0)
    (dst : Value) :
    execSteps size dst (seedStep useMovn (chunk value seedIndex) seedIndex ::
        pairs.map fun pair => .movK ⟨pair.1, pair.2 * 16⟩) =
          Value.written (value.setWidth size.bits) := by
  have result : ∀ step dst, ∃ word : BitVec size.bits,
      ConstantStep.exec size dst step = Value.written word := by
    intro step dst
    cases step <;> exact ⟨_, rfl⟩
  have isWord : ∀ steps dst, (∃ word : BitVec size.bits, dst = Value.written word) →
      ∃ word : BitVec size.bits, execSteps size dst steps = Value.written word := by
    intro steps
    induction steps with
    | nil => exact fun dst isWord => isWord
    | cons step steps ih => exact fun dst _ => ih _ (result step dst)
  obtain ⟨word, isResult⟩ := isWord (pairs.map fun pair => .movK ⟨pair.1, pair.2 * 16⟩) _
    (result (seedStep useMovn (chunk value seedIndex) seedIndex) dst)
  have whole : execSteps size dst (seedStep useMovn (chunk value seedIndex) seedIndex ::
      pairs.map fun pair => .movK ⟨pair.1, pair.2 * 16⟩) = Value.written word := isResult
  rw [whole, eq_comm]
  congr 1
  refine setWidth_eq_iff.mpr fun j below => ?_
  have bits := getLsbD_patches value below areChunks
    (ConstantStep.exec size dst (seedStep useMovn (chunk value seedIndex) seedIndex))
  rw [isResult, Value.read_written, getLsbD_seedStep value below] at bits
  rw [bits]
  split
  · rfl
  · next unpatched =>
      split
      · rfl
      · next notSeed =>
          have inside : j / 16 < chunkCount size := by
            have := bits_eq size
            omega
          have background := others _ inside notSeed unpatched
          rw [← getLsbD_chunk_div value j, background]
          cases useMovn with
          | false => simp
          | true =>
            rw [if_pos rfl, BitVec.getLsbD_allOnes, decide_eq_true (Nat.mod_lt j (by decide))]

theorem execSteps_single
    (others : ∀ index < chunkCount size, index ≠ seedIndex →
    chunk value index = if useMovn then BitVec.allOnes 16 else 0)
    (dst : Value) :
    execSteps size dst [seedStep useMovn (chunk value seedIndex) seedIndex] =
      Value.written (value.setWidth size.bits) :=
  have noPatch : ∀ pair ∈ ([] : List (BitVec 16 × Nat)), pair.1 = chunk value pair.2 := by simp
  execSteps_seeded value noPatch (fun index below other _ => others index below other) dst

theorem chunks_getElem? {index : Nat} (below : index < chunkCount size) :
    (chunks value size)[index]? = some (chunk value index) := by
  rw [chunks, List.getElem?_map, List.getElem?_range below, Option.map_some]

/-- The first chunk with a property. -/
theorem findIdx?_chunks {p : BitVec 16 → Bool}
    (some' : ∃ index < chunkCount size, p (chunk value index)) :
    ∃ index < chunkCount size,
      (chunks value size).findIdx? p = some index ∧ p (chunk value index) := by
  obtain ⟨k, below, isP⟩ := some'
  have exists' : ∃ c ∈ chunks value size, p c = true :=
    ⟨_, List.mem_map.mpr ⟨k, List.mem_range.mpr below, rfl⟩, isP⟩
  obtain ⟨index, found⟩ := Option.isSome_iff_exists.mp (List.findIdx?_isSome.trans
    (List.any_eq_true.mpr exists'))
  obtain ⟨inside, isP, -⟩ := List.findIdx?_eq_some_iff_getElem.mp found
  have isBelow : index < chunkCount size := by simpa [chunks] using inside
  refine ⟨index, isBelow, found, ?_⟩
  simpa [chunks] using isP

/-- If a single chunk has a property, the others do not. -/
theorem unique_of_countP {p : BitVec 16 → Bool} (one : (chunks value size).countP p = 1) {i k : Nat}
    (iBelow : i < chunkCount size) (isP : p (chunk value i)) (kBelow : k < chunkCount size)
    (differ : k ≠ i) : p (chunk value k) = false := by
  rw [chunks, List.countP_map, List.countP_eq_length_filter] at one
  obtain ⟨x, only⟩ := List.length_eq_one_iff.mp one
  have inOnly : ∀ {n}, n < chunkCount size → p (chunk value n) = true → n = x := fun below isP => by
    rw [← List.mem_singleton, ← only]
    exact List.mem_filter.mpr ⟨List.mem_range.mpr below, isP⟩
  rw [Bool.eq_false_iff]
  exact fun isP' => differ ((inOnly kBelow isP').trans (inOnly iBelow isP).symm)

end Steps

/-! ## The planner -/

section Planner

variable {value : BitVec 64} {size : OperandSize}

/-- What is asked of a plan for a value. -/
structure Plans (value : BitVec 64) (size : OperandSize) (plan : List ConstantStep) : Prop where
  short : plan.length ≤ chunkCount size
  leaves : ∀ dst, execSteps size dst plan = Value.written (value.setWidth size.bits)
  bitmask : ∀ imm, .logical imm ∈ plan → imm.size = size ∧ IsBitmask imm.value size

variable {useMovn : Bool}

theorem chunkCount_pos (size : OperandSize) : 0 < chunkCount size := by cases size <;> decide

theorem not_logical_seed {bits : BitVec 16} {index : Nat} {imm : ImmLogic} :
    .logical imm ≠ seedStep useMovn bits index := by
  cases useMovn <;> simp [seedStep]

theorem plans_single {seedIndex : Nat}
    (others : ∀ index < chunkCount size, index ≠ seedIndex →
    chunk value index = if useMovn then BitVec.allOnes 16 else 0) :
    Plans value size [seedStep useMovn (chunk value seedIndex) seedIndex] where
  short := chunkCount_pos size
  leaves := execSteps_single value others
  bitmask _ member := absurd (List.mem_singleton.mp member) not_logical_seed

theorem seededPlan_plans
    (some' : ∃ index < chunkCount size, chunk value index ≠
    if useMovn then BitVec.allOnes 16 else 0) :
    ∃ plan, seededPlan (chunks value size) size useMovn = some plan ∧ Plans value size plan := by
  obtain ⟨index, below, found, -⟩ := @findIdx?_chunks value size
    (fun c => c ≠ if useMovn then BitVec.allOnes 16 else 0) (by simpa using some')
  obtain ⟨pairs, isPatches, members, fewer⟩ := @patches_eq value size index
    (if useMovn then BitVec.allOnes 16 else 0)
  refine ⟨seedStep useMovn (chunk value index) index ::
    pairs.map fun pair => .movK ⟨pair.1, pair.2 * 16⟩, ?_, ?_, ?_, ?_⟩
  · unfold seededPlan
    simp only [found, Option.bind_eq_bind, Option.bind_some, chunks_getElem? value below,
      new_isSome size below, isPatches]
    cases useMovn <;> rfl
  · rw [List.length_cons, List.length_map]
    exact fewer below
  · refine execSteps_seeded value (fun pair member => ((members pair).mp member).2.1) ?_
    intro k kBelow differ unpatched
    by_contra isOther
    exact unpatched
      (List.mem_map.mpr ⟨(chunk value k, k), (members _).mpr ⟨kBelow, rfl, differ, isOther⟩,
      rfl⟩)
  · intro imm member
    rcases List.mem_cons.mp member with isSeed | isPatch
    · exact absurd isSeed not_logical_seed
    · obtain ⟨pair, -, impossible⟩ := List.mem_map.mp isPatch
      cases impossible

theorem exists_of_countP {p : BitVec 16 → Bool} (some' : (chunks value size).countP p ≠ 0) :
    ∃ index < chunkCount size, p (chunk value index) := by
  obtain ⟨c, member, isP⟩ := List.countP_pos_iff.mp (Nat.pos_of_ne_zero some')
  obtain ⟨index, inRange, rfl⟩ := List.mem_map.mp member
  exact ⟨index, List.mem_range.mp inRange, isP⟩

theorem countP_nonzero (fits : truncateToSize value size = value) (nonzero : value ≠ 0) :
    (chunks value size).countP (· ≠ 0) ≠ 0 := by
  intro none
  refine nonzero (BitVec.eq_of_getLsbD_eq fun j _ => ?_)
  have zero : (0 : BitVec 64).getLsbD j = false := by simp
  rw [← fits, getLsbD_truncateToSize, zero]
  by_cases below : j < size.bits
  · have inside : j / 16 < chunkCount size := by
      have := bits_eq size
      omega
    have isZero : chunk value (j / 16) = 0 := by
      simpa using List.countP_eq_zero.mp none _
        (List.mem_map.mpr ⟨_, List.mem_range.mpr inside, rfl⟩)
    rw [← getLsbD_chunk_div value j, isZero]
    simp
  · rw [decide_eq_false below, Bool.false_and]

/-- A single chunk differs from the background. -/
theorem plans_of_countP {useMovn : Bool}
    (one : (chunks value size).countP (· ≠ if useMovn then BitVec.allOnes 16 else 0) = 1) :
    ∃ index < chunkCount size,
      (chunks value size).findIdx? (· ≠ if useMovn then BitVec.allOnes 16 else 0) = some index ∧
        Plans value size [seedStep useMovn (chunk value index) index] := by
  obtain ⟨index, below, found, isP⟩ := findIdx?_chunks value
    (exists_of_countP (by rw [one]; decide))
  refine ⟨index, below, found, plans_single fun k kBelow differ => ?_⟩
  simpa using unique_of_countP value one below isP kBelow differ

theorem planNonzero_plans (fits : truncateToSize value size = value) (nonzero : value ≠ 0) :
    ∃ plan, planNonzero value size = some plan ∧ Plans value size plan := by
  unfold planNonzero
  dsimp only
  split
  · next one =>
      obtain ⟨index, below, found, plans⟩ := @plans_of_countP value size false one
      simp only [Bool.false_eq_true, if_false] at found
      refine ⟨_, ?_, plans⟩
      simp only [found, Option.bind_eq_bind, Option.bind_some, chunks_getElem? value below,
        new_isSome size below]
      rfl
  · split
    · next none =>
        have isOnes : ∀ index < chunkCount size, chunk value index = BitVec.allOnes 16 :=
          fun index below => by
            simpa using List.countP_eq_zero.mp none _
              (List.mem_map.mpr ⟨_, List.mem_range.mpr below, rfl⟩)
        have isSeed : seedStep true (chunk value 0) 0 = .movN ⟨0, 0⟩ := by
          rw [isOnes 0 (chunkCount_pos size)]
          decide
        have isNew : MoveWideConst.new 0 0 size = some ⟨0, 0⟩ := by cases size <;> rfl
        refine ⟨[.movN ⟨0, 0⟩], by rw [isNew]; rfl, ?_⟩
        rw [← isSeed]
        exact plans_single fun index below _ => isOnes index below
    · next some' =>
        split
        · next one =>
            obtain ⟨index, below, found, plans⟩ := @plans_of_countP value size true one
            simp only [if_true] at found
            refine ⟨_, ?_, plans⟩
            simp only [found, Option.bind_eq_bind, Option.bind_some, chunks_getElem? value below,
              new_isSome size below]
            rfl
        · split
          · next imm isImm =>
              unfold ImmLogic.new at isImm
              rw [fits] at isImm
              split at isImm
              · next isLogical =>
                  cases isImm
                  refine ⟨_, rfl, chunkCount_pos size, fun dst => ?_, fun imm member => ?_⟩
                  · simp [execSteps, ConstantStep.exec, ImmLogic.bits]
                  · cases List.mem_singleton.mp member
                    exact ⟨rfl, isLogicalImmediate_iff.mp isLogical⟩
              · cases isImm
          · refine seededPlan_plans ?_
            cases useMovn : decide ((chunks value size).countP (· ≠ BitVec.allOnes 16) <
                (chunks value size).countP (· ≠ 0)) with
            | false => simpa using exists_of_countP (countP_nonzero fits nonzero)
            | true => simpa using exists_of_countP some'

/-- Every constant of either size has a plan, of at most one step for each chunk, which
leaves the constant in the destination.  Logical immediates are used for bitmasks only, and
the test for them is exact. -/
theorem planIntegerConstant_exact (value : BitVec 64) (size : OperandSize) :
    (∃ plan, planIntegerConstant value size = some plan ∧ plan.length ≤ chunkCount size ∧
      (∀ dst, execSteps size dst plan = Value.written (value.setWidth size.bits)) ∧
      ∀ imm, .logical imm ∈ plan → imm.size = size ∧ IsBitmask imm.value size) ∧
    (isLogicalImmediate value size = true ↔ IsBitmask value size) := by
  refine ⟨?_, isLogicalImmediate_iff⟩
  have low : (truncateToSize value size).setWidth size.bits = value.setWidth size.bits := by
    refine setWidth_eq_iff.mpr fun i below => ?_
    rw [getLsbD_truncateToSize, BitVec.getLsbD_setWidth]
  unfold planIntegerConstant
  split
  · next isZero =>
      refine ⟨_, rfl, chunkCount_pos size, fun dst => ?_, fun imm member => ?_⟩
      · rw [← low, isZero]
        simp [execSteps, ConstantStep.exec]
      · cases List.mem_singleton.mp member
  · next nonzero =>
      have twice : truncateToSize (truncateToSize value size) size = truncateToSize value size := by
        refine BitVec.eq_of_getLsbD_eq fun i _ => ?_
        simp only [getLsbD_truncateToSize]
        rw [← Bool.and_assoc, Bool.and_self]
      obtain ⟨plan, isPlan, plans⟩ := planNonzero_plans twice nonzero
      exact ⟨plan, isPlan, plans.short, fun dst => (plans.leaves dst).trans (by rw [low]),
        plans.bitmask⟩

example : planIntegerConstant 0x12345678 .size32 =
    some [.movZ ⟨0x5678, 0⟩, .movK ⟨0x1234, 16⟩] := by decide +kernel

end Planner

end AnonCompiler.Mir
