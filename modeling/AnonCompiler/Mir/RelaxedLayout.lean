import AnonCompiler.Mir.BranchRelaxation

/-!
# The layout that the relaxation reaches

A buffer with veneers is laid out from the slots of the original one, each alone or followed
by its veneer.  Its byte offsets are those of the abstract relaxation, and the branches that
a round finds out of range are those that the abstract relaxation pushes out.
-/

set_option autoImplicit false

namespace AnonCompiler.Mir

open AnonCompiler.Lib

/-! ## Byte offsets -/

def totalBytes (slots : List Slot) : Nat := (slots.map fun slot => slotLen slot * 4).sum

@[simp] theorem totalBytes_nil : totalBytes [] = 0 := rfl

@[simp] theorem totalBytes_cons (slot : Slot) (slots : List Slot) :
    totalBytes (slot :: slots) = slotLen slot * 4 + totalBytes slots := by
  simp [totalBytes]

@[simp] theorem totalBytes_append (first second : List Slot) :
    totalBytes (first ++ second) = totalBytes first + totalBytes second := by
  simp [totalBytes]

theorem byteOffsetsFrom_append (bytes : Nat) (first second : List Slot) :
    (byteOffsetsFrom bytes (first ++ second))[first.length]? = some (bytes + totalBytes first) := by
  induction first generalizing bytes with
  | nil => cases second <;> rfl
  | cons slot rest ih =>
    rw [List.cons_append, byteOffsetsFrom, List.length_cons, List.getElem?_cons_succ, ih,
      totalBytes_cons, Nat.add_assoc]

theorem byteOffsets_append (first second : List Slot) :
    (byteOffsets (first ++ second))[first.length]? = some (totalBytes first) := by
  rw [byteOffsets, byteOffsetsFrom_append, Nat.zero_add]

theorem length_byteOffsetsFrom (bytes : Nat) (slots : List Slot) :
    (byteOffsetsFrom bytes slots).length = slots.length + 1 := by
  induction slots generalizing bytes with
  | nil => rfl
  | cons slot rest ih => rw [byteOffsetsFrom, List.length_cons, List.length_cons, ih]

/-! ## Branches to blocks -/

/-- A branch whose target is a block. -/
def Slot.blockBranch : Slot → Option (BranchRef × MirBlockIndex)
  | .branch whole =>
    match whole.target with
    | .block target => some (whole, target)
    | _ => none
  | _ => none

theorem Slot.blockBranch_eq_some {slot : Slot} {branch : BranchRef} {target : MirBlockIndex} :
    slot.blockBranch = some (branch, target) ↔
      slot = .branch branch ∧ branch.target = .block target := by
  unfold Slot.blockBranch
  split
  · split
    · next whole block isBlock =>
        constructor
        · intro same
          cases same
          exact ⟨rfl, isBlock⟩
        · rintro ⟨same, toTarget⟩
          cases same
          rw [isBlock] at toTarget
          cases toTarget
          rfl
    · next whole noBlock =>
        constructor
        · intro absurd
          cases absurd
        · rintro ⟨same, toTarget⟩
          cases same
          exact absurd toTarget (noBlock target)
  · next noBranch =>
      constructor
      · intro absurd
        cases absurd
      · rintro ⟨same, _⟩
        exact absurd same (noBranch branch)

theorem blockBranch_toVeneer (branch : BranchRef) (id : Nat) :
    (Slot.branch (branch.toVeneer id)).blockBranch = none := by
  unfold BranchRef.toVeneer
  split <;> rfl

namespace EmitBuffer

def blockBranch (b : EmitBuffer) (i : Nat) : Option (BranchRef × MirBlockIndex) :=
  b.slots[i]?.bind Slot.blockBranch

/-- The bytes of the veneer of the branch at `i`. -/
def veneerBytes (veneerLines : LabelKind → String → List String) (b : EmitBuffer) (i : Nat) : Nat :=
  match b.blockBranch i with
  | some (branch, target) =>
    match b.blockName target with
    | .ok name => max (veneerLines branch.kind name).length 1 * 4
    | .error _ => 0
  | none => 0

end EmitBuffer

theorem LabelKind.reaches_shorter {kind : LabelKind} {near far : Int}
    (shorter : 0 ≤ near ∧ near ≤ far ∨ far ≤ near ∧ near ≤ 0) (reached : kind.reaches far = true) :
    kind.reaches near = true := by
  simp only [LabelKind.reaches, Bool.and_eq_true, decide_eq_true_eq] at reached ⊢
  omega

/-- The relaxation of a buffer, in bytes. -/
def EmitBuffer.relaxation (veneerLines : LabelKind → String → List String) (b : EmitBuffer) :
    Relaxation where
  count := b.slots.length
  len i := (b.slots[i]?.elim 0 slotLen) * 4
  grow := b.veneerBytes veneerLines
  target i := (b.blockBranch i).bind fun found => b.labelOffsets found.2
  reaches i distance := (b.blockBranch i).elim true fun found => found.1.kind.reaches distance
  shorter := by
    intro i near far isShorter reached
    cases found : b.blockBranch i with
    | none => rfl
    | some found' =>
      rw [found] at reached
      exact LabelKind.reaches_shorter isShorter reached

/-! ## Marked slots -/

/-- A slot of the original buffer, and what stands for it when it has a veneer. -/
structure Mark where
  original : Slot
  veneer : Option (BranchRef × VeneerRec)

def Mark.slots (m : Mark) : List Slot :=
  match m.veneer with
  | none => [m.original]
  | some (branch, veneer) => [.branch branch, .veneer veneer]

def laidOut (marks : List Mark) : List Slot := marks.flatMap Mark.slots

/-- Where the boundary before the slot `k` is. -/
def position (marks : List Mark) (k : Nat) : Nat := (laidOut (marks.take k)).length

/-- The slots that have a veneer. -/
def marked (marks : List Mark) : Finset Nat :=
  (Finset.range marks.length).filter fun k => (marks[k]?.bind Mark.veneer).isSome

@[simp] theorem laidOut_nil : laidOut [] = [] := rfl

@[simp] theorem laidOut_cons (m : Mark) (marks : List Mark) :
    laidOut (m :: marks) = m.slots ++ laidOut marks := rfl

@[simp] theorem laidOut_append (first second : List Mark) :
    laidOut (first ++ second) = laidOut first ++ laidOut second :=
  List.flatMap_append

theorem mem_marked {marks : List Mark} {k : Nat} :
    k ∈ marked marks ↔ ∃ m, marks[k]? = some m ∧ m.veneer.isSome := by
  rw [marked, Finset.mem_filter, Finset.mem_range]
  constructor
  · rintro ⟨inside, isMarked⟩
    rw [List.getElem?_eq_getElem inside] at isMarked
    exact ⟨_, List.getElem?_eq_getElem inside, isMarked⟩
  · rintro ⟨m, found, isMarked⟩
    refine ⟨(List.getElem?_eq_some_iff.mp found).1, ?_⟩
    rw [found]
    exact isMarked

/-- The buffer `s` is the buffer `b` with the veneers of `marks`. -/
structure LaysOut (veneerLines : LabelKind → String → List String) (b : EmitBuffer)
    (marks : List Mark) (s : EmitBuffer) : Prop where
  originals : marks.map Mark.original = b.slots
  slots : s.slots = laidOut marks
  offsets : ∀ label off, b.labelOffsets label = some off → off ≤ b.slots.length →
    s.labelOffsets label = some (position marks off)
  aliases : s.labelAliases = b.labelAliases
  names : s.blockLabels = b.blockLabels
  veneers : ∀ m ∈ marks, ∀ branch veneer, m.veneer = some (branch, veneer) →
    ∃ whole target name, m.original.blockBranch = some (whole, target) ∧
      b.blockName target = .ok name ∧ veneer.lines = veneerLines whole.kind name ∧
        (Slot.branch branch).blockBranch = none

namespace LaysOut

variable {veneerLines : LabelKind → String → List String} {b s : EmitBuffer} {marks : List Mark}

section

variable (layout : LaysOut veneerLines b marks s)
include layout

theorem length_eq : marks.length = b.slots.length := by
  rw [← layout.originals, List.length_map]

theorem original_eq {k : Nat} {m : Mark} (found : marks[k]? = some m) :
    b.slots[k]? = some m.original := by
  rw [← layout.originals, List.getElem?_map, found]
  rfl

theorem blockBranch_eq {k : Nat} {m : Mark} (found : marks[k]? = some m) :
    b.blockBranch k = m.original.blockBranch := by
  rw [EmitBuffer.blockBranch, layout.original_eq found]
  rfl

theorem blockName_eq (target : MirBlockIndex) : s.blockName target = b.blockName target := by
  rw [EmitBuffer.blockName, EmitBuffer.blockName, EmitBuffer.resolved, EmitBuffer.resolved,
    layout.aliases, layout.names]

/-- The bytes of the slots that stand for one original slot. -/
theorem totalBytes_mark {k : Nat} {m : Mark} (found : marks[k]? = some m) :
    totalBytes m.slots = (b.relaxation veneerLines).len k +
      if k ∈ marked marks then (b.relaxation veneerLines).grow k else 0 := by
  have len : (b.relaxation veneerLines).len k = slotLen m.original * 4 := by
    show (b.slots[k]?.elim 0 slotLen) * 4 = _
    rw [layout.original_eq found]
    rfl
  rw [len, Mark.slots]
  cases isMarked : m.veneer with
  | none =>
    have notMember : k ∉ marked marks := by
      intro member
      obtain ⟨m', found', isSome⟩ := mem_marked.mp member
      rw [found] at found'
      cases found'
      rw [isMarked] at isSome
      cases isSome
    rw [if_neg notMember]
    simp
  | some pair =>
    obtain ⟨branch, veneer⟩ := pair
    have member : k ∈ marked marks := mem_marked.mpr ⟨m, found, by rw [isMarked]; rfl⟩
    obtain ⟨whole, target, name, isBranch, isName, lines, _⟩ :=
      layout.veneers m (List.mem_of_getElem? found) branch veneer isMarked
    have grow : (b.relaxation veneerLines).grow k =
        max (veneerLines whole.kind name).length 1 * 4 := by
      show b.veneerBytes veneerLines k = _
      rw [EmitBuffer.veneerBytes, layout.blockBranch_eq found, isBranch]
      simp only [isName]
    have single : slotLen m.original = 1 := by
      rw [(Slot.blockBranch_eq_some.mp isBranch).1]
      rfl
    rw [if_pos member, grow, single]
    simp [slotLen, lines]

theorem totalBytes_take {k : Nat} (inside : k ≤ marks.length) :
    totalBytes (laidOut (marks.take k)) = (b.relaxation veneerLines).offset (marked marks) k := by
  induction k with
  | zero => rfl
  | succ k ih =>
    have found : marks[k]? = some marks[k] := List.getElem?_eq_getElem inside
    rw [List.take_add_one, found, Option.toList_some, laidOut_append, totalBytes_append,
      ih (Nat.le_of_succ_le inside), Relaxation.offset, Relaxation.offset, Finset.sum_range_succ,
      ← layout.totalBytes_mark found]
    simp

/-- The byte offset of the boundary before an original slot. -/
theorem byteOffsets_position {k : Nat} (inside : k ≤ marks.length) :
    (byteOffsets s.slots)[position marks k]? =
      some ((b.relaxation veneerLines).offset (marked marks) k) := by
  rw [layout.slots, ← layout.totalBytes_take inside, position]
  have split : laidOut marks = laidOut (marks.take k) ++ laidOut (marks.drop k) := by
    rw [← laidOut_append, List.take_append_drop]
  rw [split]
  exact byteOffsets_append _ _

end

/-! ### Range checks -/

/-- The own offset of the target of every branch is an offset of the buffer. -/
def Inside (b : EmitBuffer) : Prop :=
  ∀ k branch target, b.blockBranch k = some (branch, target) →
    ∃ off, b.labelOffsets target = some off ∧ off ≤ b.slots.length

theorem mem_pushed_iff (layout : LaysOut veneerLines b marks s) {k : Nat} {m : Mark}
    (found : marks[k]? = some m) (notMarked : k ∉ marked marks) {branch : BranchRef}
    {target : MirBlockIndex} (isBranch : m.original.blockBranch = some (branch, target)) {off : Nat}
    (isBound : b.labelOffsets target = some off) :
    k ∈ (b.relaxation veneerLines).pushed (marked marks) ↔
      branch.kind.reaches ((b.relaxation veneerLines).distance (marked marks) k off) = false := by
  have inside : k < b.slots.length := layout.length_eq ▸ (List.getElem?_eq_some_iff.mp found).1
  have here := (layout.blockBranch_eq found).trans isBranch
  have isTarget : (b.relaxation veneerLines).target k = some off := by
    show (b.blockBranch k).bind _ = _
    rw [here]
    exact isBound
  have kind : ∀ d, (b.relaxation veneerLines).reaches k d = branch.kind.reaches d := by
    intro d
    show (b.blockBranch k).elim true _ = _
    rw [here]
    rfl
  rw [Relaxation.mem_pushed, isTarget]
  simp only [Option.mem_some_iff, exists_eq_left', kind]
  exact ⟨fun pushed => pushed.2.2, fun far => ⟨inside, notMarked, far⟩⟩

theorem not_mem_pushed (layout : LaysOut veneerLines b marks s) {k : Nat} {m : Mark}
    (found : marks[k]? = some m) (noBranch : m.original.blockBranch = none) :
    k ∉ (b.relaxation veneerLines).pushed (marked marks) := by
  intro member
  obtain ⟨_, _, t, isTarget, _⟩ := Relaxation.mem_pushed.mp member
  have here := (layout.blockBranch_eq found).trans noBranch
  change t ∈ (b.blockBranch k).bind _ at isTarget
  rw [here] at isTarget
  cases isTarget

theorem slotOutOfRange_none {b : EmitBuffer} {slot : Slot} (noBranch : slot.blockBranch = none)
    (offsets : List Nat) (i : Nat) : b.slotOutOfRange offsets i slot = .ok false := by
  unfold EmitBuffer.slotOutOfRange
  split
  · next branch =>
      split
      · next target isBlock =>
          have isBranch := Slot.blockBranch_eq_some.mpr ⟨rfl, isBlock⟩
          rw [noBranch] at isBranch
          cases isBranch
      · rfl
  · rfl

theorem slotOutOfRange_some {b : EmitBuffer} {slot : Slot} {branch : BranchRef}
    {target : MirBlockIndex} (isBranch : slot.blockBranch = some (branch, target))
    {offsets : List Nat} {i off source bytes : Nat} (isBound : b.labelOffsets target = some off)
    (atSource : offsets[i]? = some source) (atTarget : offsets[off]? = some bytes) :
    b.slotOutOfRange offsets i slot = .ok (!branch.kind.reaches ((bytes : Int) - source)) := by
  obtain ⟨rfl, isBlock⟩ := Slot.blockBranch_eq_some.mp isBranch
  simp only [EmitBuffer.slotOutOfRange, isBlock, isBound, Option.bind_some, atTarget, atSource,
    Option.getD_some]
  rfl

theorem outOfRangeFrom_cons {b : EmitBuffer} {slot : Slot} {far : Bool} {offsets : List Nat}
    {i : Nat} (checked : b.slotOutOfRange offsets i slot = .ok far) (rest : List Slot) :
    b.outOfRangeFrom offsets i (slot :: rest) =
      (b.outOfRangeFrom offsets (i + 1) rest).map fun later =>
        if far then i :: later else later := by
  rw [EmitBuffer.outOfRangeFrom, checked]
  cases b.outOfRangeFrom offsets (i + 1) rest <;> rfl

theorem map_skip {p : Prop} [Decidable p] (no : ¬ p) (i : Nat)
    (result : Except ResolvePanic (List Nat)) :
    result.map (fun later => if p then i :: later else later) = result := by
  simp only [no, if_false]
  cases result <;> rfl

/-- The check of the slots that stand for one original slot. -/
theorem outOfRangeFrom_mark (layout : LaysOut veneerLines b marks s) (targets : Inside b) {k : Nat}
    {m : Mark} (found : marks[k]? = some m) (rest : List Slot) :
    s.outOfRangeFrom (byteOffsets s.slots) (position marks k) (m.slots ++ rest) =
      (s.outOfRangeFrom (byteOffsets s.slots) (position marks k + m.slots.length) rest).map
        fun later => if k ∈ (b.relaxation veneerLines).pushed (marked marks)
          then position marks k :: later else later := by
  cases isMarked : m.veneer with
  | some pair =>
    obtain ⟨branch, veneer⟩ := pair
    have member : k ∈ marked marks := mem_marked.mpr ⟨m, found, by rw [isMarked]; rfl⟩
    have notPushed : k ∉ (b.relaxation veneerLines).pushed (marked marks) := fun pushed =>
      (Relaxation.mem_pushed.mp pushed).2.1 member
    obtain ⟨_, _, _, _, _, _, noBlock⟩ :=
      layout.veneers m (List.mem_of_getElem? found) branch veneer isMarked
    have slots : m.slots = [.branch branch, .veneer veneer] := by rw [Mark.slots, isMarked]
    rw [slots, map_skip notPushed, List.cons_append, List.cons_append, List.nil_append,
      outOfRangeFrom_cons (slotOutOfRange_none noBlock _ _), map_skip Bool.false_ne_true,
      outOfRangeFrom_cons (slotOutOfRange_none rfl _ _), map_skip Bool.false_ne_true]
    rfl
  | none =>
    have notMarked : k ∉ marked marks := by
      intro member
      obtain ⟨m', found', isSome⟩ := mem_marked.mp member
      rw [found] at found'
      cases found'
      rw [isMarked] at isSome
      cases isSome
    have slots : m.slots = [m.original] := by rw [Mark.slots, isMarked]
    rw [slots, List.cons_append, List.nil_append, List.length_singleton]
    cases isBranch : m.original.blockBranch with
    | none =>
      rw [map_skip (layout.not_mem_pushed found isBranch),
        outOfRangeFrom_cons (slotOutOfRange_none isBranch _ _), map_skip Bool.false_ne_true]
    | some pair =>
      obtain ⟨branch, target⟩ := pair
      obtain ⟨off, isBound, inside⟩ :=
        targets k branch target ((layout.blockBranch_eq found).trans isBranch)
      have here := layout.byteOffsets_position (List.getElem?_eq_some_iff.mp found).1.le
      have there := layout.byteOffsets_position (layout.length_eq ▸ inside)
      rw [outOfRangeFrom_cons (slotOutOfRange_some isBranch
        (layout.offsets target off isBound inside) here there)]
      have pushed := layout.mem_pushed_iff found notMarked isBranch isBound
      congr 1
      funext later
      by_cases far : k ∈ (b.relaxation veneerLines).pushed (marked marks)
      · rw [if_pos far]
        have := pushed.mp far
        simp only [Relaxation.distance] at this
        simp [this]
      · rw [if_neg far]
        have := pushed.not.mp far
        simp only [Relaxation.distance, Bool.not_eq_false] at this
        simp [this]

/-- The branches out of range are those that the relaxation pushes out. -/
theorem outOfRange_eq (layout : LaysOut veneerLines b marks s) (targets : Inside b) :
    s.outOfRange = .ok (((List.range marks.length).filter
      fun k => k ∈ (b.relaxation veneerLines).pushed (marked marks)).map (position marks)) := by
  have fromHere : ∀ count k, k + count = marks.length →
      s.outOfRangeFrom (byteOffsets s.slots) (position marks k) (laidOut (marks.drop k)) =
        .ok (((List.range' k count).filter
          fun k => k ∈ (b.relaxation veneerLines).pushed (marked marks)).map (position marks)) := by
    intro count
    induction count with
    | zero =>
      intro k ended
      rw [List.drop_of_length_le (by omega)]
      rfl
    | succ count ih =>
      intro k total
      have inside : k < marks.length := by omega
      have found : marks[k]? = some marks[k] := List.getElem?_eq_getElem inside
      have next : position marks k + marks[k].slots.length = position marks (k + 1) := by
        rw [position, position, List.take_add_one, found, Option.toList_some, laidOut_append,
          List.length_append]
        simp
      rw [List.drop_eq_getElem_cons inside, laidOut_cons,
        layout.outOfRangeFrom_mark targets found, next, ih (k + 1) (by omega), List.range'_succ,
        List.filter_cons]
      by_cases far : k ∈ (b.relaxation veneerLines).pushed (marked marks)
      · simp [far, Except.map]
      · simp [far, Except.map]
  have whole := fromHere marks.length 0 (Nat.zero_add _)
  rw [List.drop_zero, ← layout.slots, ← List.range_eq_range'] at whole
  exact whole

end LaysOut

/-! ## Inserting a veneer -/

theorem set_insertIdx (first : List Slot) (old new extra : Slot) (rest : List Slot) :
    ((first ++ old :: rest).set first.length new).insertIdx (first.length + 1) extra =
      first ++ new :: extra :: rest := by
  induction first with
  | nil => rfl
  | cons slot first ih =>
    simp only [List.cons_append, List.length_cons, List.set_cons_succ, List.insertIdx_succ_cons, ih]

theorem length_laidOut_set {marks : List Mark} {k : Nat} {m : Mark} (found : marks[k]? = some m)
    (m' : Mark) : (laidOut (marks.set k m')).length + m.slots.length =
      (laidOut marks).length + m'.slots.length := by
  induction marks generalizing k with
  | nil => cases found
  | cons first rest ih =>
    cases k with
    | zero =>
      cases found
      simp only [List.set_cons_zero, laidOut_cons, List.length_append]
      omega
    | succ k =>
      have := ih (k := k) found
      simp only [List.set_cons_succ, laidOut_cons, List.length_append]
      omega

theorem length_mark_slots (m : Mark) : m.slots.length = if m.veneer.isSome then 2 else 1 := by
  unfold Mark.slots
  cases m.veneer <;> rfl

theorem position_lt {marks : List Mark} {j k : Nat} (lt : j < k) (inside : k ≤ marks.length) :
    position marks j < position marks k := by
  have split : marks.take k = marks.take j ++ (marks.drop j).take (k - j) := by
    rw [← List.take_add, Nat.add_sub_cancel' lt.le]
  have nonempty : (marks.drop j).take (k - j) ≠ [] := by
    apply List.ne_nil_of_length_pos
    simp only [List.length_take, List.length_drop]
    omega
  rw [position, position, split, laidOut_append, List.length_append]
  cases rest : (marks.drop j).take (k - j) with
  | nil => exact absurd rest nonempty
  | cons m rest =>
    have := length_mark_slots m
    rw [laidOut_cons, List.length_append]
    split at this <;> omega

theorem position_set {marks : List Mark} {j k : Nat} {m : Mark} (found : marks[k]? = some m)
    (single : m.veneer = none) {m' : Mark} (double : m'.veneer.isSome) :
    position (marks.set k m') j = position marks j + if k < j then 1 else 0 := by
  rw [position, position, List.take_set]
  split
  · next before =>
      have found' : (marks.take j)[k]? = some m := by
        rw [List.getElem?_take, if_pos before]
        exact found
      have := length_laidOut_set found' m'
      rw [length_mark_slots m, length_mark_slots m', if_pos double, single] at this
      simp only [Option.isSome_none] at this
      split at this
      · cases ‹false = true›
      · omega
  · next after =>
      rw [List.set_eq_of_length_le (by simp only [List.length_take]; omega), Nat.add_zero]

namespace LaysOut

variable {veneerLines : LabelKind → String → List String} {b : EmitBuffer} {marks : List Mark}
  {s : Resolving}

/-- An insertion gives one more slot a veneer. -/
theorem insertVeneer (layout : LaysOut veneerLines b marks s.buffer) {k : Nat}
    {branch : BranchRef} {target : MirBlockIndex}
    (isBranch : b.blockBranch k = some (branch, target)) (notMarked : k ∉ marked marks)
    {name : String} (isName : b.blockName target = .ok name) (id : Nat) :
    ∃ s' marks', s.insertVeneer veneerLines (position marks k) id = .ok s' ∧
      LaysOut veneerLines b marks' s'.buffer ∧ marked marks' = insert k (marked marks) ∧
      ∀ j ≤ k, position marks' j = position marks j := by
  have inside : k < marks.length := by
    rw [layout.length_eq]
    by_contra outside
    rw [EmitBuffer.blockBranch, List.getElem?_eq_none (not_lt.mp outside)] at isBranch
    cases isBranch
  have found : marks[k]? = some marks[k] := List.getElem?_eq_getElem inside
  have original := (layout.blockBranch_eq found).symm.trans isBranch
  obtain ⟨isSlot, isBlock⟩ := Slot.blockBranch_eq_some.mp original
  have single : marks[k].veneer = none := by
    by_contra isMarked
    exact notMarked (mem_marked.mpr ⟨_, found, Option.isSome_iff_ne_none.mpr isMarked⟩)
  have slots : s.buffer.slots =
      laidOut (marks.take k) ++ .branch branch :: laidOut (marks.drop (k + 1)) := by
    have whole : laidOut marks = laidOut (marks.take k ++ marks[k] :: marks.drop (k + 1)) := by
      rw [List.getElem_cons_drop, List.take_append_drop]
    rw [layout.slots, whole, laidOut_append, laidOut_cons, Mark.slots, single]
    simp only [isSlot, List.cons_append, List.nil_append]
  have here : s.buffer.slots[position marks k]? = some (.branch branch) := by
    rw [slots, position, List.getElem?_append_right le_rfl, Nat.sub_self]
    rfl
  have nameHere : s.buffer.blockName target = .ok name := (layout.blockName_eq target).trans isName
  let veneer : VeneerRec := ⟨veneerName s.funcName id, veneerName s.funcName id ++ "_end",
    veneerLines branch.kind name⟩
  let m' : Mark := ⟨marks[k].original, some (branch.toVeneer id, veneer)⟩
  have positions : ∀ j, position (marks.set k m') j = position marks j + if k < j then 1 else 0 :=
    fun _ => position_set found single rfl
  refine ⟨s.withVeneer veneerLines (position marks k) id branch name, marks.set k m', ?_, ?_, ?_,
    fun j le => ?_⟩
  · rw [Resolving.insertVeneer, here]
    simp only [isBlock, nameHere]
    rfl
  · constructor
    case originals =>
      rw [List.map_set, ← layout.originals]
      apply List.ext_getElem?
      intro j
      rw [List.getElem?_set, List.length_map, List.getElem?_map]
      by_cases same : k = j
      · subst same
        rw [if_pos rfl, if_pos inside, found]
        rfl
      · rw [if_neg same]
    case slots =>
      show ((s.buffer.slots.set _ _).insertIdx _ _) = _
      rw [slots, position, set_insertIdx, List.set_eq_take_append_cons_drop, if_pos inside,
        laidOut_append, laidOut_cons]
      rfl
    case offsets =>
      intro label off isBound le
      show shiftLabels s.buffer.labelOffsets (position marks k) label = _
      rw [shiftLabels, layout.offsets label off isBound le, Option.map_some, positions]
      by_cases after : k < off
      · rw [if_pos after, if_pos (position_lt after (layout.length_eq ▸ le))]
      · have notAfter : ¬ position marks off > position marks k := by
          rcases (not_lt.mp after).eq_or_lt with same | before
          · rw [same]
            exact lt_irrefl _
          · exact (position_lt before inside.le).not_gt
        rw [if_neg after, if_neg notAfter, Nat.add_zero]
    case aliases => exact layout.aliases
    case names => exact layout.names
    case veneers =>
      intro m member branch' veneer' isVeneer
      rcases List.mem_or_eq_of_mem_set member with old | rfl
      · exact layout.veneers m old branch' veneer' isVeneer
      · cases isVeneer
        exact ⟨branch, target, name, original, isName, rfl, blockBranch_toVeneer branch id⟩
  · ext j
    rw [Finset.mem_insert, mem_marked, mem_marked, List.getElem?_set]
    by_cases same : k = j
    · subst same
      simp [inside, m']
    · simp [same, Ne.symm same]
  · rw [positions, if_neg (by omega), Nat.add_zero]

/-! ## Rounds -/

/-- The name of the target of every branch is known. -/
def Named (b : EmitBuffer) : Prop :=
  ∀ k branch target, b.blockBranch k = some (branch, target) →
    ∃ name, b.blockName target = .ok name

/-- Insertions from the last slot to the first. -/
theorem insertVeneers (layout : LaysOut veneerLines b marks s.buffer) (named : Named b)
    {far : List Nat} (descending : far.Pairwise fun later earlier => earlier < later)
    (branches : ∀ k ∈ far, (b.blockBranch k).isSome) (fresh : ∀ k ∈ far, k ∉ marked marks)
    (id : Nat) :
    ∃ s' marks' id', Resolving.insertVeneers veneerLines (far.map (position marks)) (s, id) =
        .ok (s', id') ∧
      LaysOut veneerLines b marks' s'.buffer ∧ marked marks' = marked marks ∪ far.toFinset := by
  induction far generalizing s marks id with
  | nil => exact ⟨s, marks, id, rfl, layout, by simp⟩
  | cons k rest ih =>
    obtain ⟨below, descending⟩ := List.pairwise_cons.mp descending
    obtain ⟨⟨branch, target⟩, isBranch⟩ :=
      Option.isSome_iff_exists.mp (branches k List.mem_cons_self)
    obtain ⟨name, isName⟩ := named k branch target isBranch
    obtain ⟨s', marks', inserted, layout', isMarked, positions⟩ :=
      layout.insertVeneer isBranch (fresh k List.mem_cons_self) isName id
    have same : rest.map (position marks) = rest.map (position marks') :=
      List.map_congr_left fun j member => (positions j (below j member).le).symm
    have fresh' : ∀ j ∈ rest, j ∉ marked marks' := by
      intro j member
      rw [isMarked, Finset.mem_insert]
      rintro (rfl | old)
      · exact lt_irrefl _ (below j member)
      · exact fresh j (List.mem_cons_of_mem _ member) old
    obtain ⟨s'', marks'', id'', result, layout'', isMarked'⟩ := ih layout' descending
      (fun j member => branches j (List.mem_cons_of_mem _ member)) fresh' (id + 1)
    refine ⟨s'', marks'', id'', ?_, layout'', ?_⟩
    · rw [List.map_cons, Resolving.insertVeneers, inserted, same]
      exact result
    · rw [isMarked', isMarked, List.toFinset_cons, Finset.insert_union, Finset.union_insert]

/-- The slots that a round finds, in the order of the buffer. -/
def pushedSlots (veneerLines : LabelKind → String → List String) (b : EmitBuffer)
    (marks : List Mark) : List Nat :=
  (List.range marks.length).filter fun k => k ∈ (b.relaxation veneerLines).pushed (marked marks)

omit s in
theorem pushedSlots_toFinset {s : EmitBuffer} (layout : LaysOut veneerLines b marks s) :
    (pushedSlots veneerLines b marks).reverse.toFinset =
      (b.relaxation veneerLines).pushed (marked marks) := by
  ext k
  rw [List.toFinset_reverse, List.mem_toFinset, pushedSlots, List.mem_filter, List.mem_range,
    decide_eq_true_eq]
  refine ⟨fun found => found.2, fun member => ⟨?_, member⟩⟩
  rw [layout.length_eq]
  exact (Relaxation.mem_pushed.mp member).1

/-- One round of insertions. -/
theorem insertRound (layout : LaysOut veneerLines b marks s.buffer) (named : Named b) (id : Nat) :
    ∃ s' marks' id', Resolving.insertVeneers veneerLines
        ((pushedSlots veneerLines b marks).map (position marks)).reverse (s, id) = .ok (s', id') ∧
      LaysOut veneerLines b marks' s'.buffer ∧
      marked marks' = marked marks ∪ (b.relaxation veneerLines).pushed (marked marks) := by
  have member : ∀ k ∈ (pushedSlots veneerLines b marks).reverse,
      k ∈ (b.relaxation veneerLines).pushed (marked marks) := by
    intro k inList
    simpa using (List.mem_filter.mp (List.mem_reverse.mp inList)).2
  rw [← pushedSlots_toFinset layout, ← List.map_reverse]
  apply layout.insertVeneers named
  · rw [List.pairwise_reverse]
    exact List.pairwise_lt_range.filter _
  · intro k inList
    obtain ⟨_, _, t, isTarget, _⟩ := Relaxation.mem_pushed.mp (member k inList)
    change t ∈ (b.blockBranch k).bind _ at isTarget
    cases isBranch : b.blockBranch k with
    | some found => rfl
    | none =>
      rw [isBranch] at isTarget
      cases isTarget
  · intro k inList
    exact (Relaxation.mem_pushed.mp (member k inList)).2.1

theorem pushedSlots_eq_nil {s : EmitBuffer} (layout : LaysOut veneerLines b marks s) :
    pushedSlots veneerLines b marks = [] ↔
      (b.relaxation veneerLines).pushed (marked marks) = ∅ := by
  rw [← pushedSlots_toFinset layout, List.toFinset_eq_empty_iff, List.reverse_eq_nil_iff]

/-- The rounds climb through the levels. -/
theorem relax (layout : LaysOut veneerLines b marks s.buffer) (named : Named b)
    (targets : Inside b) {n : Nat} (isLevel : marked marks = (b.relaxation veneerLines).level n)
    (rounds id : Nat) :
    ∃ s' marks' id', Resolving.relax veneerLines rounds (s, id) = .ok (s', id') ∧
      LaysOut veneerLines b marks' s'.buffer ∧
      marked marks' = (b.relaxation veneerLines).level (n + rounds) := by
  induction rounds generalizing s marks n id with
  | zero => exact ⟨s, marks, id, rfl, layout, isLevel⟩
  | succ rounds ih =>
    have checked : s.buffer.outOfRange =
        .ok ((pushedSlots veneerLines b marks).map (position marks)) :=
          layout.outOfRange_eq targets
    rw [Resolving.relax, checked]
    by_cases settled : (b.relaxation veneerLines).pushed (marked marks) = ∅
    · have none := layout.pushedSlots_eq_nil.mpr settled
      refine ⟨s, marks, id, ?_, layout, ?_⟩
      · rw [none]
        rfl
      · rw [isLevel, Relaxation.level_of_settled _ (Nat.le_add_right n _)]
        rwa [Relaxation.Settled, ← isLevel]
    · have some := layout.pushedSlots_eq_nil.not.mpr settled
      obtain ⟨s', marks', id', inserted, layout', isMarked⟩ := layout.insertRound named id
      obtain ⟨s'', marks'', id'', result, layout'', isLevel'⟩ := ih layout' (n := n + 1)
        (by rw [isMarked, isLevel]; rfl) id'
      refine ⟨s'', marks'', id'', ?_, layout'', ?_⟩
      · show (if _ = [] then _ else _) = _
        rw [if_neg (by simpa using some)]
        show (Resolving.insertVeneers _ _ _).bind _ = _
        rw [inserted]
        exact result
      · rw [isLevel', Nat.add_assoc, Nat.add_comm 1 rounds]

end LaysOut

/-- Before the first round no slot has a veneer. -/
theorem LaysOut.start (veneerLines : LabelKind → String → List String) (b : EmitBuffer) :
    LaysOut veneerLines b (b.slots.map fun slot => ⟨slot, none⟩) b := by
  have render : ∀ slots : List Slot, laidOut (slots.map fun slot => ⟨slot, none⟩) = slots := by
    intro slots
    induction slots with
    | nil => rfl
    | cons slot rest ih => exact congrArg (slot :: ·) ih
  constructor
  case originals =>
    rw [List.map_map]
    exact List.map_id b.slots
  case slots => exact (render b.slots).symm
  case offsets =>
    intro label off isBound le
    rw [position, ← List.map_take, render, List.length_take, Nat.min_eq_left le]
    exact isBound
  case aliases => rfl
  case names => rfl
  case veneers =>
    intro m member branch veneer isVeneer
    obtain ⟨slot, _, rfl⟩ := List.mem_map.mp member
    cases isVeneer

theorem marked_start (b : EmitBuffer) : marked (b.slots.map fun slot => ⟨slot, none⟩) = ∅ := by
  ext k
  rw [mem_marked]
  simp only [List.getElem?_map, Option.map_eq_some_iff, Finset.notMem_empty, iff_false]
  rintro ⟨m, ⟨slot, _, rfl⟩, isMarked⟩
  cases isMarked

end AnonCompiler.Mir
