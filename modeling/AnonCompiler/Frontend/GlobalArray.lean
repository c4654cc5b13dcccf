import AnonCompiler.Lib.Enumeration
import AnonCompiler.Frontend.ArrayMemory

/-!
# Global arrays, and when both kinds agree

The data of a global array is the row of its words as long as no size is too large: a zero
initializer is emitted with its size cut to 32 bits, and the sizes of zero elements are
summed in 32 bits.
-/

set_option autoImplicit false

namespace AnonCompiler.Frontend

open AnonCompiler.Ir AnonCompiler.Lib

variable {Exp : Type}

/-! ## Building the nested constant -/

variable {elems : List GlobalInst} {ty : Ty} {count : Nat} {dims : List Nat}
  {words : List (BitVec 32)} {entries : List (Nat × Exp)}

theorem aggregate_eq (filled : elems ≠ []) (same : ∀ elem ∈ elems, elem.ty = ty) :
    aggregate elems = some (.aggregate (.array ty elems.length) elems) := by
  cases elems with
  | nil => exact absurd rfl filled
  | cons first rest =>
    have firstTy : first.ty = ty := same first List.mem_cons_self
    rw [aggregate, if_pos]
    · rw [firstTy, List.length_cons]
    · intro elem member
      rw [firstTy, same elem (List.mem_cons_of_mem first member)]

theorem lowerElems_append (elems elems' : List GlobalInst) :
    lowerElems (elems ++ elems') =
      (lowerElems elems).bind fun data => (lowerElems elems').map fun later => data ++ later := by
  induction elems with
  | nil => cases h : lowerElems elems' <;> simp [lowerElems, h]
  | cons elem rest ih =>
    rw [List.cons_append, lowerElems, lowerElems, ih]
    cases lowerGlobalInit elem <;> cases lowerElems rest <;> cases lowerElems elems' <;> simp

/-- Lowering forgets the nesting. -/
theorem lowerElems_aggregates (pieces : List (List GlobalInst)) (ty : List GlobalInst → Ty) :
    lowerElems (pieces.map fun piece => .aggregate (ty piece) piece) =
      lowerElems pieces.flatten := by
  induction pieces with
  | nil => rfl
  | cons piece rest ih =>
    rw [List.map_cons, List.flatten_cons, lowerElems_append, lowerElems, lowerGlobalInit, ih]
    cases lowerElems piece <;> cases lowerElems rest.flatten <;> rfl

/-- One step of the nesting. -/
theorem aggregate_chunks {dim : Nat} (positive : 0 < dim) (length : elems.length = count * dim)
    (same : ∀ elem ∈ elems, elem.ty = ty) :
    ∃ aggs, (chunks dim elems).mapM aggregate = some aggs ∧ aggs.length = count ∧
      (∀ agg ∈ aggs, agg.ty = .array ty dim) ∧ lowerElems aggs = lowerElems elems := by
  refine ⟨(chunks dim elems).map fun piece => .aggregate (.array ty piece.length) piece,
    mapM_some ?_, ?_, ?_, ?_⟩
  · intro piece member
    have pieceLength := chunk_length positive length member
    apply aggregate_eq
    · rintro rfl
      exact absurd pieceLength (Nat.ne_of_lt positive)
    · exact fun elem inPiece => same elem (mem_of_mem_chunk member inPiece)
  · rw [List.length_map, chunks_length positive length]
  · intro agg member
    obtain ⟨piece, isPiece, rfl⟩ := List.mem_map.mp member
    rw [GlobalInst.ty, chunk_length positive length isPiece]
  · rw [lowerElems_aggregates _ fun piece => .array ty piece.length, flatten_chunks positive length]

/-- The nesting over all dimensions. -/
theorem aggregate_dims (positive : ∀ dim ∈ dims, 0 < dim)
    (length : elems.length = count * dims.prod) (same : ∀ elem ∈ elems, elem.ty = ty) :
    ∃ aggs, dims.reverse.foldlM (fun elems dim => (chunks dim elems).mapM aggregate) elems =
        some aggs ∧ aggs.length = count ∧
      (∀ agg ∈ aggs, agg.ty = dims.foldr (fun len base => .array base len) ty) ∧
      lowerElems aggs = lowerElems elems := by
  induction dims generalizing count with
  | nil => exact ⟨elems, rfl, by simpa using length, same, rfl⟩
  | cons dim inner ih =>
    rw [List.prod_cons, ← Nat.mul_assoc] at length
    obtain ⟨rows, nested, rowCount, rowTy, rowData⟩ :=
      ih (fun d member => positive d (List.mem_cons_of_mem dim member)) length
    obtain ⟨aggs, run, aggCount, aggTy, aggData⟩ :=
      aggregate_chunks (positive dim List.mem_cons_self) rowCount rowTy
    refine ⟨aggs, ?_, aggCount, aggTy, aggData.trans rowData⟩
    rw [List.reverse_cons, List.foldlM_append, nested]
    simp [run]

/-! ## The words of the elements -/

def BType.data : BType → BitVec 32 → GlobalData
  | .int, word => .i32 word
  | .float, word => .f32 word

/-- The words of a global array, in order. -/
def constWords (value : Exp → BitVec 32) (entries : List (Nat × Exp)) (count : Nat) :
    List (BitVec 32) :=
  (padded entries 0 count).map fun exp => exp.elim 0 value

variable (bType : BType)

theorem lowerElems_consts (words : List (BitVec 32)) :
    lowerElems (words.map bType.const) = some (words.map bType.data) := by
  induction words with
  | nil => rfl
  | cons word rest ih =>
    have head : lowerGlobalInit (bType.const word) = some [bType.data word] := by
      cases bType <;> rfl
    rw [List.map_cons, List.map_cons, lowerElems, head, ih]
    rfl

theorem data_isZero (word : BitVec 32) : (bType.data word).isZero = (word == 0) := by
  cases bType <;> rfl

theorem data_bytes (word : BitVec 32) : (bType.data word).directive.bytes = wordBytes word := by
  cases bType <;> rfl

theorem data_size (word : BitVec 32) : (bType.data word).size = 4 := by
  cases bType <;> rfl

theorem wordBytes_zeros (count : Nat) :
    (List.replicate count (0 : BitVec 32)).flatMap wordBytes = zeroBytes (4 * count) := by
  have zero : wordBytes 0 = List.replicate 4 (.byte 0) := by decide
  induction count with
  | zero => rfl
  | succ count ih =>
    rw [List.replicate_succ, List.flatMap_cons, ih, zero, zeroBytes, zeroBytes,
      List.replicate_append_replicate, Nat.mul_succ, Nat.add_comm]

theorem sum_sizes (words : List (BitVec 32)) {sum : Nat} (small : sum < 2 ^ 32) :
    (words.map bType.data).foldlM (fun sum entry => u32 (sum + entry.size)) sum =
      u32 (sum + 4 * words.length) := by
  induction words generalizing sum with
  | nil => exact (if_pos small).symm
  | cons word rest ih =>
    rw [List.map_cons, List.foldlM_cons, data_size, List.length_cons]
    by_cases fits : sum + 4 < 2 ^ 32
    · rw [u32, if_pos fits]
      exact (ih fits).trans (by rw [Nat.add_assoc, Nat.mul_succ, Nat.add_comm 4])
    · rw [u32, u32, if_neg fits, if_neg (by omega)]
      rfl

/-- The emitted elements: their words, unless all are zero and together too large. -/
theorem emit_words (fits : 4 * words.length < 2 ^ 32 ∨ ∃ w ∈ words, w ≠ 0) :
    ∃ lines, emitGlobal (words.map bType.data) = some lines ∧
      lines.flatMap Directive.bytes = words.flatMap wordBytes := by
  by_cases zeros : ∀ w ∈ words, w = 0
  · have size : 4 * words.length < 2 ^ 32 := by
      rcases fits with small | ⟨w, member, nonzero⟩
      · exact small
      · exact absurd (zeros w member) nonzero
    have all : (words.map bType.data).all GlobalData.isZero := by
      simpa [data_isZero] using zeros
    refine ⟨[.zero (4 * words.length)], ?_, ?_⟩
    · rw [emitGlobal, if_pos all, sum_sizes bType words (by decide), u32, if_pos (by omega)]
      simp
    · rw [List.eq_replicate_of_mem zeros, wordBytes_zeros]
      simp [Directive.bytes]
  · have notAll : ¬ (words.map bType.data).all GlobalData.isZero := by
      simpa [data_isZero] using zeros
    refine ⟨_, by rw [emitGlobal, if_neg notAll], ?_⟩
    rw [List.map_map, List.flatMap_map]
    congr 1
    funext word
    exact data_bytes bType word

theorem emit_zeros_none (large : 2 ^ 32 ≤ 4 * words.length) (zeros : ∀ w ∈ words, w = 0) :
    emitGlobal (words.map bType.data) = none := by
  have all : (words.map bType.data).all GlobalData.isZero := by
    simpa [data_isZero] using zeros
  rw [emitGlobal, if_pos all, sum_sizes bType words (by decide), u32, if_neg (by omega)]
  rfl

/-! ## The data of a global definition -/

theorem Places.eq_nil_of_empty {pos : Nat} {initVals : List (InitVal Exp)}
    (places : Places dims pos initVals entries) (empty : InitVal.allEmptyInit initVals) :
    entries = [] := by
  induction places with
  | done => rfl
  | surplus _ => rfl
  | scalar _ _ _ => simp [InitVal.allEmptyInit, InitVal.isEmptyInit] at empty
  | brace _ _ _ _ ihNested ihLater =>
    simp only [InitVal.allEmptyInit, InitVal.isEmptyInit, Bool.and_eq_true] at empty
    rw [ihNested empty.1, ihLater empty.2]
    rfl

theorem constWords_length (value : Exp → BitVec 32) (entries : List (Nat × Exp)) (count : Nat) :
    (constWords value entries count).length = count := by
  rw [constWords, List.length_map, padded_length]

theorem mem_constWords {value : Exp → BitVec 32} {w : BitVec 32}
    (member : w ∈ constWords value entries count) :
    w = 0 ∨ ∃ entry ∈ entries, w = value entry.2 := by
  obtain ⟨elem, isElem, rfl⟩ := List.mem_map.mp member
  obtain ⟨i, -, rfl⟩ := List.mem_map.mp isElem
  cases found : entries.lookup i with
  | none => exact .inl rfl
  | some exp =>
    obtain ⟨before, after, split, -⟩ := List.lookup_eq_some_iff.mp found
    exact .inr ⟨(i, exp), by simp [split], rfl⟩

section Global

variable (shape : ArrayShape) (initVals : List (InitVal Exp)) (value : Exp → BitVec 32)

/-- An initializer without expressions: the size is cut to 32 bits. -/
theorem globalBytes_empty (empty : (InitVal.array initVals).isEmptyInit)
    (fits : 4 * shape.dims.prod < 2 ^ 64) :
    globalBytes bType shape.dims (.array initVals) value =
      some (zeroBytes (4 * shape.dims.prod % 2 ^ 32)) := by
  have below : 4 * shape.dims.prod % 2 ^ 32 < 2 ^ 32 := Nat.mod_lt _ (by decide)
  have lowered : lowerGlobalInit (.zeroInit (arrayTy bType shape.dims)) =
      some [.zeroInit (4 * shape.dims.prod % 2 ^ 32)] := by
    rw [lowerGlobalInit, usizeSize_arrayTy bType shape.positive, usize_some fits, Option.map_some]
  have emitted : emitGlobal [.zeroInit (4 * shape.dims.prod % 2 ^ 32)] =
      some [.zero (4 * shape.dims.prod % 2 ^ 32)] := by
    have sum : u32 (0 + (4 * shape.dims.prod % 2 ^ 32)) = some (4 * shape.dims.prod % 2 ^ 32) := by
      rw [Nat.zero_add]
      exact if_pos below
    have all : [GlobalData.zeroInit (4 * shape.dims.prod % 2 ^ 32)].all GlobalData.isZero := rfl
    rw [emitGlobal, if_pos all, List.foldlM_cons, GlobalData.size, sum]
    rfl
  have global : globalConvert bType shape.dims (.array initVals) value =
      some (.zeroInit (arrayTy bType shape.dims)) := if_pos empty
  simp only [globalBytes, global, lowered, emitted, Option.bind_eq_bind, Option.bind_some]
  simp [Directive.bytes]

/-- An initializer with expressions: every element is emitted. -/
theorem globalBytes_filled {entries : List (Nat × Exp)}
    (filled : (InitVal.array initVals).isEmptyInit = false)
    (dense : (InitVal.array initVals).initValShape shape.dims =
      some (padded entries 0 shape.dims.prod)) :
    globalBytes bType shape.dims (.array initVals) value =
      (emitGlobal ((constWords value entries shape.dims.prod).map bType.data)).map
        fun lines => lines.flatMap Directive.bytes := by
  have length : ((constWords value entries shape.dims.prod).map bType.const).length =
      1 * shape.dims.prod := by
    rw [List.length_map, constWords_length, Nat.one_mul]
  have same : ∀ elem ∈ (constWords value entries shape.dims.prod).map bType.const,
      elem.ty = bType.ty := by
    intro elem member
    obtain ⟨word, -, rfl⟩ := List.mem_map.mp member
    cases bType <;> rfl
  obtain ⟨aggs, run, one, -, data⟩ := aggregate_dims shape.positive length same
  obtain ⟨agg, rfl⟩ := List.length_eq_one_iff.mp one
  rw [lowerElems_consts] at data
  have lowered : lowerGlobalInit agg =
      some ((constWords value entries shape.dims.prod).map bType.data) := by
    rw [lowerElems] at data
    cases single : lowerGlobalInit agg with
    | none => simp [single] at data
    | some own => simpa [single, lowerElems] using data
  have elems : (padded entries 0 shape.dims.prod).map (fun exp => bType.const (exp.elim 0 value)) =
      (constWords value entries shape.dims.prod).map bType.const := by
    rw [constWords, List.map_map]
    rfl
  have global : globalConvert bType shape.dims (.array initVals) value = some agg := by
    simp only [globalConvert, filled, dense, elems, run, Option.bind_eq_bind, Option.bind_some,
      Bool.false_eq_true, if_false, List.head?_cons]
  simp only [globalBytes, global, lowered, Option.bind_eq_bind, Option.bind_some]
  cases emitGlobal ((constWords value entries shape.dims.prod).map bType.data) <;> rfl

end Global

/-! ## Local and global arrays agree -/

/-- The initializer is read by the brace rule on every path: both enumerations give the
placed expressions, the code of a local definition evaluates each of them once and in order
and leaves their words in the memory of the array, and the data of a global definition are
the same bytes. -/
structure FollowsBraceRule (shape : ArrayShape) (initVals : List (InitVal Exp))
    (value : Exp → BitVec 32) (entries : List (Nat × Exp)) : Prop where
  places : Places shape.dims 0 initVals entries
  sparse : (InitVal.array initVals).explicitInitVals shape.dims = some entries
  increasing : (entries.map Prod.fst).Pairwise (· < ·)
  inside : ∀ entry ∈ entries, entry.1 < shape.dims.prod
  dense : (InitVal.array initVals).initValShape shape.dims =
    some (padded entries 0 shape.dims.prod)
  memory : ∃ code bytes, convert bType shape.dims (.array initVals) = some code ∧
    globalBytes bType shape.dims (.array initVals) value = some bytes ∧
    ∀ (σ : Type) (eval : Exp → σ → BitVec 32 × σ) (s : σ) (m : Mem) (obj : Obj),
      m.size obj = some (4 * shape.dims.prod) →
      ∃ m', runLocal bType shape.dims obj eval code (s, m) =
          some ((evaluateAll eval entries s).2, m') ∧
        HoldsWords m' obj shape.dims.prod (wordAt (evaluateAll eval entries s).1 fun _ => 0) ∧
        ((∀ exp s, (eval exp s).1 = value exp) → m'.bytesAt obj 0 (4 * shape.dims.prod) = bytes)

/-- Some expression that is not dropped has a nonzero value. -/
def SomeNonzero (shape : ArrayShape) (initVals : List (InitVal Exp)) (value : Exp → BitVec 32) :
    Prop :=
  ∃ entries, Places shape.dims 0 initVals entries ∧ ∃ entry ∈ entries, value entry.2 ≠ 0

section Agreement

variable {bType} {shape : ArrayShape} {initVals : List (InitVal Exp)} {value : Exp → BitVec 32}
  {entries : List (Nat × Exp)}

theorem evaluateAll_const {σ : Type} {eval : Exp → σ → BitVec 32 × σ}
    (agrees : ∀ exp s, (eval exp s).1 = value exp) (entries : List (Nat × Exp)) (s : σ) (i : Nat) :
    wordAt (evaluateAll eval entries s).1 (fun _ => 0) i = (entries.lookup i).elim 0 value := by
  induction entries generalizing s with
  | nil => rfl
  | cons entry rest ih =>
    obtain ⟨pos, exp⟩ := entry
    have later := ih (eval exp s).2
    simp only [wordAt, evaluateAll, List.lookup_cons] at later ⊢
    cases i == pos with
    | true => exact agrees exp s
    | false => exact later

theorem constWords_bytes (value : Exp → BitVec 32) (entries : List (Nat × Exp)) (count : Nat) :
    (constWords value entries count).flatMap wordBytes =
      (List.range count).flatMap fun i => wordBytes ((entries.lookup i).elim 0 value) := by
  rw [constWords, padded, List.map_map, List.flatMap_map, List.range_eq_range']
  rfl

theorem initValShape_small {v : List (Option Exp)}
    (dense : (InitVal.array initVals).initValShape shape.dims = some v) :
    shape.dims.prod < 2 ^ 60 := by
  by_contra large
  have refused : product shape.dims = none ∨
      product shape.dims = some shape.dims.prod ∧ withCapacity shape.dims.prod = none := by
    rw [product_eq shape.positive]
    by_cases fits : shape.dims.prod < 2 ^ 64
    · exact .inr ⟨usize_some fits, if_neg (by rw [pointerSize]; omega)⟩
    · exact .inl (if_neg fits)
  rcases refused with none | ⟨some, none⟩ <;>
    simp [InitVal.initValShape, *] at dense

/-- The data of a global definition, while no size is cut. -/
theorem globalBytes_eq (places : Places shape.dims 0 initVals entries)
    (dense : (InitVal.array initVals).initValShape shape.dims =
      some (padded entries 0 shape.dims.prod))
    (fits : 4 * shape.dims.prod < 2 ^ 32 ∨ ∃ entry ∈ entries, value entry.2 ≠ 0) :
    globalBytes bType shape.dims (.array initVals) value =
      some ((constWords value entries shape.dims.prod).flatMap wordBytes) := by
  cases empty : (InitVal.array initVals).isEmptyInit with
  | true =>
    rw [InitVal.isEmptyInit] at empty
    obtain rfl := places.eq_nil_of_empty empty
    have small : 4 * shape.dims.prod < 2 ^ 32 := by simpa using fits
    have zeros : constWords value ([] : List (Nat × Exp)) shape.dims.prod =
        List.replicate shape.dims.prod 0 := by
      rw [constWords, padded_nil, List.map_replicate]
      rfl
    rw [globalBytes_empty bType shape initVals value (by rwa [InitVal.isEmptyInit]) (by omega),
      Nat.mod_eq_of_lt small, zeros, wordBytes_zeros]
  | false =>
    have room : 4 * (constWords value entries shape.dims.prod).length < 2 ^ 32 ∨
        ∃ w ∈ constWords value entries shape.dims.prod, w ≠ 0 := by
      rw [constWords_length]
      refine fits.imp_right ?_
      rintro ⟨entry, member, nonzero⟩
      refine ⟨value entry.2, List.mem_map.mpr ⟨some entry.2, ?_, rfl⟩, nonzero⟩
      refine List.mem_map.mpr ⟨entry.1, ?_, lookup_of_mem places.increasing member⟩
      exact List.mem_range'_1.mpr ⟨Nat.zero_le _, by simpa using (places.inside entry member).2⟩
    obtain ⟨lines, emitted, bytes⟩ := emit_words bType room
    rw [globalBytes_filled bType shape initVals value empty dense, emitted, Option.map_some, bytes]

/-- A large array of zeros has no data of its size. -/
theorem not_followsBraceRule (large : 2 ^ 32 ≤ 4 * shape.dims.prod)
    (zeros : ∀ entry ∈ entries, value entry.2 = 0) :
    ¬ FollowsBraceRule bType shape initVals value entries := by
  intro follows
  have small := initValShape_small follows.dense
  obtain ⟨code, bytes, -, data, runs⟩ := follows.memory
  -- The memory that a run of the local code leaves has the size of the array.
  obtain ⟨m, -, -, same⟩ := runs Unit (fun exp _ => (value exp, ())) ()
    ⟨fun _ => some (4 * shape.dims.prod), fun _ _ => .undef⟩ (.global 0) rfl
  have length : bytes.length = 4 * shape.dims.prod := by
    rw [← same fun _ _ => rfl, Mem.bytesAt, List.length_map, List.length_range]
  cases empty : (InitVal.array initVals).isEmptyInit with
  | true =>
    rw [globalBytes_empty bType shape initVals value empty (by omega)] at data
    have cut : 4 * shape.dims.prod % 2 ^ 32 < 2 ^ 32 := Nat.mod_lt _ (by decide)
    rw [← Option.some.inj data, zeroBytes, List.length_replicate] at length
    omega
  | false =>
    have allZero : ∀ w ∈ constWords value entries shape.dims.prod, w = 0 := by
      intro w member
      rcases mem_constWords member with zero | ⟨entry, isEntry, rfl⟩
      · exact zero
      · exact zeros entry isEntry
    have none := emit_zeros_none bType (by rwa [constWords_length]) allZero
    rw [globalBytes_filled bType shape initVals value empty follows.dense, none] at data
    cases data

/-- The initializer of an array is read by the brace rule on every path exactly when the
size of the array fits in 32 bits, or some element is not zero and the dense form fits in
memory. -/
theorem followsBraceRule_iff (bType : BType) (shape : ArrayShape) (initVals : List (InitVal Exp))
    (value : Exp → BitVec 32) :
    (∃ entries, FollowsBraceRule bType shape initVals value entries) ↔
      4 * shape.dims.prod < 2 ^ 32 ∨
        shape.dims.prod < 2 ^ 60 ∧ SomeNonzero shape initVals value := by
  constructor
  · rintro ⟨entries, follows⟩
    by_cases small : 4 * shape.dims.prod < 2 ^ 32
    · exact .inl small
    · refine .inr ⟨initValShape_small follows.dense, entries, follows.places, ?_⟩
      by_contra zeros
      push Not at zeros
      exact not_followsBraceRule (Nat.not_lt.mp small) zeros follows
  · intro condition
    have bounded : shape.dims.prod < 2 ^ 60 := by
      rcases condition with small | ⟨bounded, -⟩
      · omega
      · exact bounded
    obtain ⟨entries, places, dense⟩ := initValShape_eq initVals shape.positive bounded
    obtain ⟨_, places₁, sparse⟩ := explicitInitVals_eq initVals shape.positive (by omega)
    obtain ⟨_, places₂, code⟩ := convert_eq bType shape initVals (by omega)
    obtain rfl := places.unique places₁
    obtain rfl := places.unique places₂
    have fits : 4 * shape.dims.prod < 2 ^ 32 ∨ ∃ entry ∈ entries, value entry.2 ≠ 0 := by
      refine condition.imp_right ?_
      rintro ⟨-, _, places₃, nonzero⟩
      rwa [places.unique places₃]
    refine ⟨entries, places, sparse, places.increasing,
      fun entry member => (places.inside entry member).2, dense, _, _, code,
      globalBytes_eq places dense fits, ?_⟩
    intro σ eval s m obj size
    obtain ⟨m', run, holds⟩ := run_convert bType shape eval places s size
    refine ⟨m', run, holds, fun agrees => ?_⟩
    rw [holds.bytesAt_eq, constWords_bytes]
    congr 1
    funext i
    rw [evaluateAll_const agrees]

/-- `int a[1073741824] = {};` has no data as a global. -/
theorem hugeZeros_not_followsBraceRule :
    ¬ ∃ entries, FollowsBraceRule .int
      ⟨[2 ^ 30], by decide, by decide, by decide⟩ ([] : List (InitVal Unit)) (fun _ => 0)
      entries := by
  rintro ⟨entries, follows⟩
  exact not_followsBraceRule (by decide) (fun _ _ => rfl) follows

end Agreement

end AnonCompiler.Frontend
