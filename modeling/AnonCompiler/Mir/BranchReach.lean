import AnonCompiler.Lib.Word
import AnonCompiler.Mir.EmittedBuffer

/-!
# Branches after the relaxation

What `resolve` leaves behind.  It succeeds when the relaxation settles within its rounds
(`resolve_plain_iff`), a remaining branch is then within the reach of the table, which is
more than its instruction can encode (`encodes_iff`), and the check looks at the own offset
of a label where another label is printed (`printedInReach_iff`).
-/

set_option autoImplicit false

namespace AnonCompiler.Mir

open AnonCompiler.Lib

variable {veneerLines : LabelKind → String → List String} {b : EmitBuffer}

/-! ## The two outcomes of the relaxation -/

def Resolving.start (b : EmitBuffer) (funcName : String) : Resolving := ⟨b, funcName, [], []⟩

section Outcome

variable (named : LaysOut.Named b) (inside : LaysOut.Inside b) (funcName : String)

include named inside

variable (veneerLines) in
theorem relax_start :
    ∃ s marks id, Resolving.relax veneerLines Resolving.maxRounds (.start b funcName, 0) =
        .ok (s, id) ∧ LaysOut veneerLines b marks s.buffer ∧
      marked marks = (b.relaxation veneerLines).level Resolving.maxRounds ∧
      s.buffer.outOfRange =
        .ok ((LaysOut.pushedSlots veneerLines b marks).map (position marks)) := by
  have begin := LaysOut.start veneerLines b
  have isLevel : marked (b.slots.map fun slot => ⟨slot, none⟩) =
      (b.relaxation veneerLines).level 0 := marked_start b
  obtain ⟨s, marks, id, result, layout, level⟩ :=
    LaysOut.relax (s := .start b funcName) begin named inside isLevel Resolving.maxRounds 0
  exact ⟨s, marks, id, result, layout, by rwa [Nat.zero_add] at level, layout.outOfRange_eq inside⟩

/-- The relaxation has settled: only the slots that need one have got a veneer. -/
theorem resolve_of_settled
    (settled : (b.relaxation veneerLines).Settled Resolving.maxRounds) :
    ∃ s marks, Resolving.resolve veneerLines (.start b funcName) = .ok s ∧
      LaysOut veneerLines b marks s.buffer ∧
      marked marks = (b.relaxation veneerLines).needed := by
  obtain ⟨s, marks, id, result, layout, level, checked⟩ :=
    relax_start veneerLines named inside funcName
  have nothing := layout.pushedSlots_eq_nil.mpr (level ▸ settled)
  refine ⟨s, marks, ?_, layout, level.trans (Relaxation.level_eq_needed settled)⟩
  show (Resolving.relax _ _ _).bind _ = _
  rw [result]
  show (EmitBuffer.outOfRange _).bind _ = _
  rw [checked, nothing]
  rfl

/-- The relaxation has not settled: the last check fails. -/
theorem resolve_of_not_settled
    (unsettled : ¬ (b.relaxation veneerLines).Settled Resolving.maxRounds) :
    Resolving.resolve veneerLines (.start b funcName) = .error .outOfRange := by
  obtain ⟨s, marks, id, result, layout, level, checked⟩ :=
    relax_start veneerLines named inside funcName
  have some := layout.pushedSlots_eq_nil.not.mpr (level ▸ unsettled)
  show (Resolving.relax _ _ _).bind _ = _
  rw [result]
  show (EmitBuffer.outOfRange _).bind _ = _
  rw [checked]
  exact if_neg (by simpa using some)

end Outcome

/-! ## The round limit -/

variable {k off : Nat} {branch : BranchRef} {target : MirBlockIndex}

/-- Without branch optimisation `resolve` succeeds exactly when the cascade of veneers has at
most as many levels as there are rounds. -/
theorem resolve_plain_iff (veneerLines : LabelKind → String → List String)
    {blockLabels : List String} {sequence : List EmitCall}
    (calls : CallsBound blockLabels sequence)
    (emitted : EmitBuffer.emit blockLabels false sequence = some b) (funcName : String) :
    (∃ s, Resolving.resolve veneerLines (.start b funcName) = .ok s) ↔
      (b.relaxation veneerLines).Settled Resolving.maxRounds := by
  have named := (finished_of_emit calls emitted).named
  have inside := plain_inside calls emitted
  constructor
  · rintro ⟨s, result⟩
    by_contra unsettled
    rw [resolve_of_not_settled named inside funcName unsettled] at result
    cases result
  · intro settled
    obtain ⟨s, _, result, _⟩ := resolve_of_settled named inside funcName settled
    exact ⟨s, result⟩

def oneLine (_ : LabelKind) (target : String) : List String := ["b " ++ target]

/-- A branch over one instruction. -/
def nearCalls : List EmitCall :=
  [.putBranch "b.eq " "b.ne " 0 .BRANCH19, .writeStr "nop", .endInst, .bindLabel 0]

theorem nearCalls_bound : CallsBound [".L_f_0"] nearCalls where
  once := by decide
  inRange := by decide
  bound := by decide

theorem nearCalls_settled :
    ∃ b, EmitBuffer.emit [".L_f_0"] false nearCalls = some b ∧
      (b.relaxation oneLine).Settled 0 :=
  ⟨_, rfl, by decide⟩

theorem resolve_nearCalls :
    ∃ b, EmitBuffer.emit [".L_f_0"] false nearCalls = some b ∧
      ∃ s, Resolving.resolve oneLine (.start b "f") = .ok s := by
  obtain ⟨b, emitted, settled⟩ := nearCalls_settled
  exact ⟨b, emitted, (resolve_plain_iff oneLine nearCalls_bound emitted "f").mpr
    (settled.mono (Nat.zero_le _))⟩

/-- A branch over the next one. -/
def cascadeBranch (i : Nat) : EmitCall := .putBranch "b.eq " "b.ne " i ⟨8, 8⟩

/-- Nine branches; only the last one is out of range, and the veneer of each pushes out the
one before it. -/
def cascadeCalls : List EmitCall :=
  [cascadeBranch 0] ++ (List.range 7).flatMap (fun i => [cascadeBranch (i + 1), .bindLabel i]) ++
    [.putBranch "b.eq " "b.ne " 8 ⟨4, 4⟩, .bindLabel 7, .writeStr "nop", .endInst, .bindLabel 8]

def cascadeLabels : List String :=
  [".L_f_0", ".L_f_1", ".L_f_2", ".L_f_3", ".L_f_4", ".L_f_5", ".L_f_6", ".L_f_7", ".L_f_8"]

theorem cascadeCalls_bound : CallsBound cascadeLabels cascadeCalls where
  once := by decide
  inRange := by decide
  bound := by decide

theorem cascade_pushed :
    ∃ b, EmitBuffer.emit cascadeLabels false cascadeCalls = some b ∧
      ∀ k < 9, (b.relaxation oneLine).pushed (Finset.Ioc (8 - k) 8) = {8 - k} := by
  refine ⟨_, rfl, ?_⟩
  decide

theorem cascade_not_resolved :
    CallsBound cascadeLabels cascadeCalls ∧
      ∃ b, EmitBuffer.emit cascadeLabels false cascadeCalls = some b ∧
        ∀ s, Resolving.resolve oneLine (.start b "f") ≠ .ok s := by
  obtain ⟨b, emitted, pushed⟩ := cascade_pushed
  refine ⟨cascadeCalls_bound, b, emitted, fun s result => ?_⟩
  have level : ∀ k ≤ 8, (b.relaxation oneLine).level k = Finset.Ioc (8 - k) 8 := by
    intro k
    induction k with
    | zero => exact fun _ => rfl
    | succ k ih =>
      intro le
      rw [Relaxation.level, ih (by omega), pushed k (by omega)]
      ext i
      simp only [Finset.mem_union, Finset.mem_Ioc, Finset.mem_singleton]
      omega
  have unsettled : ¬ (b.relaxation oneLine).Settled Resolving.maxRounds := by
    rw [Relaxation.Settled, Resolving.maxRounds, level 8 le_rfl, pushed 8 (by decide)]
    exact Finset.singleton_ne_empty _
  rw [resolve_of_not_settled (finished_of_emit cascadeCalls_bound emitted).named
    (plain_inside cascadeCalls_bound emitted) "f" unsettled] at result
  cases result

/-! ## Remaining branches -/

namespace LaysOut

variable {marks : List Mark} {s : EmitBuffer}

theorem laidOut_blockBranch {marks : List Mark} {i : Nat} {slot : Slot}
    (plain : ∀ m ∈ marks, ∀ branch veneer, m.veneer = some (branch, veneer) →
      (Slot.branch branch).blockBranch = none)
    (isSlot : (laidOut marks)[i]? = some slot) (isBranch : slot.blockBranch.isSome) :
    ∃ k, marks[k]? = some ⟨slot, none⟩ ∧ i = position marks k := by
  induction marks generalizing i with
  | nil => cases isSlot
  | cons m rest ih =>
    have later : ∀ {j}, (laidOut rest)[j]? = some slot → i = m.slots.length + j →
        ∃ k, (m :: rest)[k]? = some ⟨slot, none⟩ ∧ i = position (m :: rest) k := by
      intro j isLater same
      obtain ⟨k, found, rfl⟩ := ih (fun m' member => plain m' (List.mem_cons_of_mem _ member))
        isLater
      refine ⟨k + 1, found, ?_⟩
      rw [same, position, position, List.take_succ_cons, laidOut_cons, List.length_append]
    rw [laidOut_cons] at isSlot
    by_cases here : i < m.slots.length
    · rw [List.getElem?_append_left here] at isSlot
      obtain ⟨original, veneer⟩ := m
      cases veneer with
      | none =>
        obtain rfl : i = 0 := Nat.lt_one_iff.mp here
        cases isSlot
        exact ⟨0, rfl, rfl⟩
      | some pair =>
        obtain ⟨branch, veneer⟩ := pair
        have noBranch := plain _ List.mem_cons_self branch veneer rfl
        have two : i < 2 := here
        obtain rfl | rfl : i = 0 ∨ i = 1 := by omega
        · obtain rfl := Option.some.inj isSlot
          rw [noBranch] at isBranch
          cases isBranch
        · obtain rfl := Option.some.inj isSlot
          cases isBranch
    · rw [List.getElem?_append_right (not_lt.mp here)] at isSlot
      exact later isSlot (by omega)

/-- The branches to blocks that remain are those without a veneer. -/
theorem blockBranch_iff (layout : LaysOut veneerLines b marks s) {i : Nat} {branch : BranchRef}
    {target : MirBlockIndex} :
    s.blockBranch i = some (branch, target) ↔
      ∃ k, k ∉ marked marks ∧ b.blockBranch k = some (branch, target) ∧ i = position marks k := by
  constructor
  · intro isBranch
    obtain ⟨slot, isSlot, isBlock⟩ := Option.bind_eq_some_iff.mp isBranch
    rw [layout.slots] at isSlot
    obtain ⟨k, found, rfl⟩ := laidOut_blockBranch (fun m member branch veneer isVeneer => by
      obtain ⟨_, _, _, _, _, _, noBranch⟩ := layout.veneers m member branch veneer isVeneer
      exact noBranch) isSlot (by rw [isBlock]; rfl)
    refine ⟨k, fun isMarked => ?_, (layout.blockBranch_eq found).trans isBlock, rfl⟩
    obtain ⟨m, found', isSome⟩ := mem_marked.mp isMarked
    rw [found] at found'
    cases found'
    cases isSome
  · rintro ⟨k, notMarked, isBranch, rfl⟩
    obtain ⟨slot, isSlot, isBlock⟩ := Option.bind_eq_some_iff.mp isBranch
    have inside : k < marks.length := layout.length_eq ▸ (List.getElem?_eq_some_iff.mp isSlot).1
    have found : marks[k]? = some marks[k] := List.getElem?_eq_getElem inside
    have original : marks[k].original = slot := by
      rw [layout.original_eq found] at isSlot
      exact Option.some.inj isSlot
    have single : marks[k].veneer = none := by
      by_contra isMarked
      exact notMarked (mem_marked.mpr ⟨_, found, Option.isSome_iff_ne_none.mpr isMarked⟩)
    have here : s.slots[position marks k]? = some slot := by
      have split : laidOut marks = laidOut (marks.take k) ++ laidOut (marks.drop k) := by
        rw [← laidOut_append, List.take_append_drop]
      rw [layout.slots, split, position, List.getElem?_append_right le_rfl, Nat.sub_self,
        List.drop_eq_getElem_cons inside, laidOut_cons, Mark.slots, single, original]
      rfl
    rw [EmitBuffer.blockBranch, here]
    exact isBlock

end LaysOut

/-! ## Immediate fields -/

namespace LabelKind

/-- Width and scale of the immediate of the instruction form. -/
def immediate (kind : LabelKind) : Option (Nat × Nat) :=
  if kind = BRANCH14 then some (14, 4)
  else if kind = BRANCH19 then some (19, 4)
  else if kind = BRANCH26 then some (26, 4)
  else if kind = RV_B then some (13, 1)
  else if kind = RV_JAL then some (21, 1)
  else none

/-- The distance is a value of the signed immediate. -/
def Encodes (kind : LabelKind) (distance : Int) : Prop :=
  ∀ form ∈ kind.immediate, ∃ imm : BitVec form.1, imm.toInt * form.2 = distance

/-- The distances that the table reaches and the immediate does not: the positive end on
AArch64, and the outer half of the reach on RISC-V. -/
def Overshoots (kind : LabelKind) (distance : Int) : Prop :=
  (kind = BRANCH14 ∨ kind = BRANCH19 ∨ kind = BRANCH26) ∧ distance = kind.positive ∨
    (kind = RV_B ∨ kind = RV_JAL) ∧
      ¬ (-((kind.negative : Int) / 2) ≤ distance ∧ distance < (kind.positive : Int) / 2)

instance (kind : LabelKind) (distance : Int) : Decidable (kind.Overshoots distance) :=
  inferInstanceAs (Decidable (_ ∨ _))

theorem exists_scaled {w scale : Nat} (wide : 0 < w) (pos : 0 < scale) {distance : Int}
    (aligned : (scale : Int) ∣ distance) :
    (∃ imm : BitVec w, imm.toInt * scale = distance) ↔
      -2 ^ (w - 1) * scale ≤ distance ∧ distance < 2 ^ (w - 1) * scale := by
  obtain ⟨x, rfl⟩ := aligned
  have positive : (0 : Int) < scale := by exact_mod_cast pos
  have cancel : ∀ imm : BitVec w, imm.toInt * scale = scale * x ↔ imm.toInt = x := by
    intro imm
    rw [mul_comm, mul_right_inj' positive.ne']
  simp only [cancel]
  rw [Word.exists_toInt_eq wide, mul_comm (scale : Int) x, mul_le_mul_iff_left₀ positive,
    mul_lt_mul_iff_left₀ positive]

section Forms

variable {kind : LabelKind} {distance : Int} {w : Nat}

/-- A signed immediate scaled by four, whose positive end the table takes for reached. -/
theorem encodes_scaled (wide : 0 < w) (form : kind.immediate = some (w, 4))
    (positive : (kind.positive : Int) = 2 ^ (w - 1) * 4)
    (negative : (kind.negative : Int) = 2 ^ (w - 1) * 4) (reached : kind.reaches distance = true)
    (aligned : 4 ∣ distance) : kind.Encodes distance ↔ distance ≠ kind.positive := by
  rw [reaches, Bool.and_eq_true, decide_eq_true_eq, decide_eq_true_eq] at reached
  have range := exists_scaled wide (by decide : 0 < 4) aligned
  rw [Encodes, form]
  simp only [Option.mem_some_iff, forall_eq', range]
  omega

/-- A signed byte offset, of which the table takes twice the reach. -/
theorem encodes_bytes (wide : 0 < w) (form : kind.immediate = some (w, 1))
    (positive : (kind.positive : Int) = 2 ^ (w - 1) * 2)
    (negative : (kind.negative : Int) = 2 ^ (w - 1) * 2) :
    kind.Encodes distance ↔
      -((kind.negative : Int) / 2) ≤ distance ∧ distance < (kind.positive : Int) / 2 := by
  have range := exists_scaled wide Nat.one_pos (by simp : ((1 : Nat) : Int) ∣ distance)
  rw [Encodes, form]
  simp only [Option.mem_some_iff, forall_eq', range]
  omega

end Forms

/-- In the reach of the table, a distance is encoded unless it overshoots. -/
theorem encodes_iff {kind : LabelKind} {distance : Int} (reached : kind.reaches distance = true)
    (aligned : 4 ∣ distance) : kind.Encodes distance ↔ ¬ kind.Overshoots distance := by
  by_cases h14 : kind = BRANCH14
  · subst h14
    rw [encodes_scaled (w := 14) (by decide) rfl rfl rfl reached aligned, Overshoots]
    simp [show BRANCH14 ≠ RV_B by decide, show BRANCH14 ≠ RV_JAL by decide]
  by_cases h19 : kind = BRANCH19
  · subst h19
    rw [encodes_scaled (w := 19) (by decide) rfl rfl rfl reached aligned, Overshoots]
    simp [show BRANCH19 ≠ RV_B by decide, show BRANCH19 ≠ RV_JAL by decide]
  by_cases h26 : kind = BRANCH26
  · subst h26
    rw [encodes_scaled (w := 26) (by decide) rfl rfl rfl reached aligned, Overshoots]
    simp [show BRANCH26 ≠ RV_B by decide, show BRANCH26 ≠ RV_JAL by decide]
  by_cases hB : kind = RV_B
  · subst hB
    rw [encodes_bytes (w := 13) (by decide) rfl rfl rfl, Overshoots]
    simp [h14, h19, h26]
  by_cases hJal : kind = RV_JAL
  · subst hJal
    rw [encodes_bytes (w := 21) (by decide) rfl rfl rfl, Overshoots]
    simp [h14, h19, h26]
  simp [Encodes, Overshoots, immediate, h14, h19, h26, hB, hJal]

end LabelKind

/-- Every remaining branch to a block encodes the distance to its target. -/
def BranchesEncode (s : EmitBuffer) : Prop :=
  ∀ i branch target off source bytes, s.blockBranch i = some (branch, target) →
    s.labelOffsets target = some off → (byteOffsets s.slots)[i]? = some source →
      (byteOffsets s.slots)[off]? = some bytes →
        branch.kind.Encodes ((bytes : Int) - source)

/-- Every slot is a number of four-byte instructions. -/
theorem dvd_distance (veneerLines : LabelKind → String → List String) (b : EmitBuffer)
    (grown : Finset Nat) (i t : Nat) :
    (4 : Int) ∣ (b.relaxation veneerLines).distance grown i t := by
  have dvd : ∀ k, 4 ∣ (b.relaxation veneerLines).offset grown k := by
    intro k
    apply Finset.dvd_sum
    intro j _
    apply Nat.dvd_add (Nat.dvd_mul_left 4 _)
    split
    · show 4 ∣ b.veneerBytes veneerLines j
      unfold EmitBuffer.veneerBytes
      split
      · split
        · exact Nat.dvd_mul_left 4 _
        · exact Nat.dvd_zero 4
      · exact Nat.dvd_zero 4
    · exact Nat.dvd_zero 4
  exact Int.dvd_sub (by exact_mod_cast dvd t) (by exact_mod_cast dvd i)

/-- A branch that needs no veneer is in the reach of the table. -/
theorem reaches_of_not_needed (settled : (b.relaxation veneerLines).Settled Resolving.maxRounds)
    (notNeeded : k ∉ (b.relaxation veneerLines).needed)
    (isBranch : b.blockBranch k = some (branch, target))
    (isOff : b.labelOffsets target = some off) :
    branch.kind.reaches
      ((b.relaxation veneerLines).distance (b.relaxation veneerLines).needed k off) = true := by
  rw [← Relaxation.level_eq_needed settled] at notNeeded ⊢
  by_contra far
  have inside : k < b.slots.length := by
    obtain ⟨slot, isSlot, _⟩ := Option.bind_eq_some_iff.mp isBranch
    exact (List.getElem?_eq_some_iff.mp isSlot).1
  have isPushed : k ∈ (b.relaxation veneerLines).pushed
      ((b.relaxation veneerLines).level Resolving.maxRounds) := by
    refine Relaxation.mem_pushed.mpr ⟨inside, notNeeded, off, ?_, ?_⟩
    · show (b.blockBranch k).bind _ = some off
      rw [isBranch]
      exact isOff
    · show (b.blockBranch k).elim true _ = false
      rw [isBranch]
      simpa using far
  rw [settled] at isPushed
  exact Finset.notMem_empty k isPushed

/-- Every remaining branch can be encoded exactly when no branch that stays without a veneer
overshoots. -/
theorem branchesEncode_of_resolve (named : LaysOut.Named b) (inside : LaysOut.Inside b)
    (settled : (b.relaxation veneerLines).Settled Resolving.maxRounds) {funcName : String}
    {s : Resolving} (result : Resolving.resolve veneerLines (.start b funcName) = .ok s) :
    BranchesEncode s.buffer ↔
      ∀ k branch target off, k ∉ (b.relaxation veneerLines).needed →
        b.blockBranch k = some (branch, target) → b.labelOffsets target = some off →
          ¬ branch.kind.Overshoots
            ((b.relaxation veneerLines).distance (b.relaxation veneerLines).needed k off) := by
  obtain ⟨s', marks, result', layout, isNeeded⟩ := resolve_of_settled named inside funcName settled
  obtain rfl := Except.ok.inj (result'.symm.trans result)
  have same : ∀ k branch target off, k ∉ (b.relaxation veneerLines).needed →
      b.blockBranch k = some (branch, target) → b.labelOffsets target = some off →
        (branch.kind.Encodes ((b.relaxation veneerLines).distance (b.relaxation veneerLines).needed
          k off) ↔ ¬ branch.kind.Overshoots
            ((b.relaxation veneerLines).distance (b.relaxation veneerLines).needed k off)) :=
    fun k branch target off notNeeded isBranch isOff => LabelKind.encodes_iff
      (reaches_of_not_needed settled notNeeded isBranch isOff) (dvd_distance _ _ _ _ _)
  have place : ∀ k branch target off, b.blockBranch k = some (branch, target) →
      b.labelOffsets target = some off → s'.buffer.labelOffsets target = some (position marks off) ∧
        (byteOffsets s'.buffer.slots)[position marks k]? =
          some ((b.relaxation veneerLines).offset (b.relaxation veneerLines).needed k) ∧
        (byteOffsets s'.buffer.slots)[position marks off]? =
          some ((b.relaxation veneerLines).offset (b.relaxation veneerLines).needed off) := by
    intro k branch target off isBranch isOff
    obtain ⟨off', isOff', le⟩ := inside k branch target isBranch
    obtain rfl := Option.some.inj (isOff.symm.trans isOff')
    obtain ⟨slot, isSlot, _⟩ := Option.bind_eq_some_iff.mp isBranch
    have le' := (List.getElem?_eq_some_iff.mp isSlot).1.le
    rw [← isNeeded]
    exact ⟨layout.offsets target off isOff le, layout.byteOffsets_position (layout.length_eq ▸ le'),
      layout.byteOffsets_position (layout.length_eq ▸ le)⟩
  constructor
  · intro encode k branch target off notNeeded isBranch isOff
    obtain ⟨label, source, bytes⟩ := place k branch target off isBranch isOff
    have remains := layout.blockBranch_iff.mpr ⟨k, isNeeded ▸ notNeeded, isBranch, rfl⟩
    exact (same k branch target off notNeeded isBranch isOff).mp
      (encode _ branch target _ _ _ remains label source bytes)
  · intro fine i branch target off source bytes remains isOff atSource atTarget
    obtain ⟨k, notMarked, isBranch, rfl⟩ := layout.blockBranch_iff.mp remains
    obtain ⟨own, isOwn, _⟩ := inside k branch target isBranch
    obtain ⟨label, source', bytes'⟩ := place k branch target own isBranch isOwn
    obtain rfl := Option.some.inj (label.symm.trans isOff)
    obtain rfl := Option.some.inj (source'.symm.trans atSource)
    obtain rfl := Option.some.inj (bytes'.symm.trans atTarget)
    have notNeeded := isNeeded ▸ notMarked
    exact (same k branch target own notNeeded isBranch isOwn).mpr
      (fine k branch target own notNeeded isBranch isOwn)

theorem branchesEncode_iff (veneerLines : LabelKind → String → List String)
    {blockLabels : List String} {sequence : List EmitCall}
    (calls : CallsBound blockLabels sequence)
    (emitted : EmitBuffer.emit blockLabels false sequence = some b) {funcName : String}
    {s : Resolving} (result : Resolving.resolve veneerLines (.start b funcName) = .ok s) :
    BranchesEncode s.buffer ↔
      ∀ k branch target off, k ∉ (b.relaxation veneerLines).needed →
        b.blockBranch k = some (branch, target) → b.labelOffsets target = some off →
          ¬ branch.kind.Overshoots
            ((b.relaxation veneerLines).distance (b.relaxation veneerLines).needed k off) := by
  have named := (finished_of_emit calls emitted).named
  have inside := plain_inside calls emitted
  apply branchesEncode_of_resolve named inside _ result
  by_contra unsettled
  rw [resolve_of_not_settled named inside funcName unsettled] at result
  cases result

theorem branchesEncode_nearCalls :
    ∃ b s, EmitBuffer.emit [".L_f_0"] false nearCalls = some b ∧
      Resolving.resolve oneLine (.start b "f") = .ok s ∧ BranchesEncode s.buffer := by
  refine ⟨_, _, rfl, rfl, (branchesEncode_iff oneLine nearCalls_bound rfl rfl).mpr ?_⟩
  intro k branch target off _ isBranch isOff
  match k with
  | 0 =>
    cases isBranch
    cases isOff
    decide
  | 1 => cases isBranch
  | k + 2 => cases isBranch

/-- A RISC-V branch over so many instructions. -/
def farCalls (n : Nat) : List EmitCall :=
  .putBranch "beq a0, a1, " "bne a0, a1, " 0 .RV_B ::
    ((List.replicate n [EmitCall.writeStr "nop", .endInst]).flatten ++ [.bindLabel 0])

theorem calls_append (b : EmitBuffer) (first second : List EmitCall) :
    b.calls (first ++ second) = (b.calls first).bind fun next => next.calls second := by
  induction first generalizing b with
  | nil => rfl
  | cons c rest ih =>
    rw [List.cons_append, EmitBuffer.calls, EmitBuffer.calls, Option.bind_assoc]
    congr 1
    funext next
    exact ih next

theorem calls_nops (b : EmitBuffer) (idle : b.pending = "") (n : Nat) :
    b.calls (List.replicate n [EmitCall.writeStr "nop", .endInst]).flatten =
      some { b with slots := b.slots ++ List.replicate n (.text "nop") } := by
  induction n generalizing b with
  | zero => simp [EmitBuffer.calls]
  | succ n ih =>
    have one : b.calls [EmitCall.writeStr "nop", .endInst] =
        some { b with slots := b.slots ++ [.text "nop"] } := by
      simp [EmitBuffer.calls, EmitBuffer.call, EmitBuffer.writeStr, EmitBuffer.endInst, idle]
    rw [List.replicate_succ, List.flatten_cons, calls_append, one, Option.bind_some,
      ih { b with slots := b.slots ++ [.text "nop"] } idle]
    simp [List.replicate_succ]

theorem emit_farCalls (n : Nat) :
    ∃ b, EmitBuffer.emit [".L_f_0"] false (farCalls n) = some b ∧
      b.slots = .branch ⟨"beq a0, a1, ", some "bne a0, a1, ", .block 0, .RV_B⟩ ::
        List.replicate n (.text "nop") ∧ b.labelOffsets 0 = some (n + 1) := by
  have empty : Plain (.new [".L_f_0"] false) := ⟨rfl, rfl⟩
  obtain ⟨first, isFirst, firstPlain, -, firstSlots, idle, -⟩ :=
    empty.call (.putBranch "beq a0, a1, " "bne a0, a1, " 0 .RV_B)
  have nops := calls_nops first idle n
  have longPlain : Plain { first with slots := first.slots ++ List.replicate n (.text "nop") } :=
    ⟨firstPlain.disabled, firstPlain.unaliased⟩
  obtain ⟨last, isLast, lastPlain, -, lastSlots, -, lastOffsets⟩ := longPlain.call (.bindLabel 0)
  obtain ⟨labels, off, cleared, -⟩ := lazilyClear_spec last
  refine ⟨last.lazilyClearLabelsAtTail, ?_, ?_, ?_⟩
  · rw [EmitBuffer.emit, farCalls, EmitBuffer.calls, isFirst, Option.bind_some, calls_append, nops,
      Option.bind_some, EmitBuffer.calls, isLast, Option.bind_some, EmitBuffer.calls,
      Option.bind_some]
    exact lastPlain.optimizeBranches
  · rw [cleared]
    show last.slots = _
    rw [lastSlots, firstSlots]
    simp [EmitBuffer.new, EmitCall.slots]
  · rw [cleared]
    show last.labelOffsets 0 = _
    rw [lastOffsets, EmitCall.offsets, if_pos (by simp [EmitCall.labels]), firstSlots]
    simp [EmitBuffer.new, EmitCall.slots]

theorem farCalls_bound (n : Nat) : CallsBound [".L_f_0"] (farCalls n) := by
  have labels : boundLabels (farCalls n) = [0] := by
    have none :
        boundLabels (List.replicate n [EmitCall.writeStr "nop", .endInst]).flatten = [] := by
      apply List.flatMap_eq_nil_iff.mpr
      intro c member
      obtain ⟨pair, isPair, inPair⟩ := List.mem_flatten.mp member
      obtain rfl := (List.mem_replicate.mp isPair).2
      rcases List.mem_pair.mp inPair with rfl | rfl <;> rfl
    rw [boundLabels] at none ⊢
    rw [farCalls, List.flatMap_cons, List.flatMap_append, none]
    rfl
  refine ⟨by rw [labels]; decide, by rw [labels]; decide, ?_⟩
  intro c member target isTarget
  rw [labels]
  rcases List.mem_cons.mp member with rfl | member
  · cases isTarget
    exact List.mem_singleton.mpr rfl
  · rcases List.mem_append.mp member with inNops | last
    · obtain ⟨pair, isPair, inPair⟩ := List.mem_flatten.mp inNops
      obtain rfl := (List.mem_replicate.mp isPair).2
      rcases List.mem_pair.mp inPair with rfl | rfl <;> cases isTarget
    · obtain rfl := List.mem_singleton.mp last
      cases isTarget

/-- A B-type branch over 1023 to 2047 instructions is left alone, and cannot be encoded. -/
theorem farCalls_overshoot {n : Nat} (far : 1023 ≤ n) (near : n ≤ 2047) : ∃ b s,
    EmitBuffer.emit [".L_f_0"] false (farCalls n) = some b ∧
      Resolving.resolve oneLine (.start b "f") = .ok s ∧ ¬ BranchesEncode s.buffer := by
  obtain ⟨b, emitted, slots, bound⟩ := emit_farCalls n
  have calls := farCalls_bound n
  have named := (finished_of_emit calls emitted).named
  have inside := plain_inside calls emitted
  have isBranch : b.blockBranch 0 =
      some (⟨"beq a0, a1, ", some "bne a0, a1, ", .block 0, .RV_B⟩, 0) := by
    rw [EmitBuffer.blockBranch, slots]
    rfl
  have onlyBranch : ∀ k, b.blockBranch k ≠ none → k = 0 := by
    intro k some
    cases k with
    | zero => rfl
    | succ k =>
      rw [EmitBuffer.blockBranch, slots, List.getElem?_cons_succ, List.getElem?_replicate] at some
      split at some <;> exact absurd rfl some
  have offsets : ∀ k ≤ n + 1, (b.relaxation oneLine).offset ∅ k = k * 4 := by
    intro k
    induction k with
    | zero => exact fun _ => rfl
    | succ k ih =>
      intro le
      have len : (b.relaxation oneLine).len k = 4 := by
        show (b.slots[k]?.elim 0 slotLen) * 4 = 4
        rw [slots]
        cases k with
        | zero => rfl
        | succ k =>
          rw [List.getElem?_cons_succ, List.getElem?_replicate, if_pos (by omega)]
          rfl
      have next : (b.relaxation oneLine).offset ∅ (k + 1) =
          (b.relaxation oneLine).offset ∅ k + 4 := by
        rw [Relaxation.offset, Finset.sum_range_succ, len]
        rfl
      rw [next, ih (by omega)]
      omega
  have distance : (b.relaxation oneLine).distance ∅ 0 (n + 1) = 4 * n + 4 := by
    rw [Relaxation.distance, offsets (n + 1) le_rfl, offsets 0 (Nat.zero_le _)]
    push_cast
    ring
  have positive : (LabelKind.RV_B.positive : Int) = 8192 := rfl
  have negative : (LabelKind.RV_B.negative : Int) = 8192 := rfl
  have settled : (b.relaxation oneLine).Settled 0 := by
    apply Finset.eq_empty_of_forall_notMem
    intro k isPushed
    obtain ⟨_, _, t, isTarget, unreached⟩ := Relaxation.mem_pushed.mp isPushed
    change t ∈ (b.blockBranch k).bind _ at isTarget
    change (b.blockBranch k).elim true _ = false at unreached
    obtain rfl : k = 0 := by
      apply onlyBranch
      intro noBranch
      rw [noBranch] at isTarget
      cases isTarget
    rw [isBranch] at isTarget unreached
    obtain rfl : n + 1 = t := Option.some.inj (bound.symm.trans isTarget)
    change LabelKind.RV_B.reaches ((b.relaxation oneLine).distance ∅ 0 (n + 1)) = false at unreached
    rw [distance, LabelKind.reaches, positive, negative] at unreached
    simp at unreached
    omega
  have late := settled.mono (Nat.zero_le Resolving.maxRounds)
  obtain ⟨s, _, result, _⟩ := resolve_of_settled named inside "f" late
  refine ⟨b, s, emitted, result, fun encode => ?_⟩
  have isNeeded : (b.relaxation oneLine).needed = ∅ := (Relaxation.level_eq_needed settled).symm
  have fine := (branchesEncode_of_resolve named inside late result).mp encode 0 _ 0 (n + 1)
    (by rw [isNeeded]; exact Finset.notMem_empty 0) isBranch bound
  apply fine
  rw [isNeeded, distance]
  refine .inr ⟨.inl rfl, ?_⟩
  rw [positive, negative]
  omega

theorem farCalls_not_encoded :
    CallsBound [".L_f_0"] (farCalls 1024) ∧ ∃ b s,
      EmitBuffer.emit [".L_f_0"] false (farCalls 1024) = some b ∧
        Resolving.resolve oneLine (.start b "f") = .ok s ∧ ¬ BranchesEncode s.buffer :=
  ⟨farCalls_bound 1024, farCalls_overshoot (by decide) (by decide)⟩

/-! ## The label that is printed -/

/-- Every branch to a block reaches the label that is printed for it. -/
def PrintsInReach (s : EmitBuffer) : Prop :=
  ∀ i branch target, s.blockBranch i = some (branch, target) →
    ∃ off source bytes, s.resolveLabelOffset target = some (some off) ∧
      (byteOffsets s.slots)[i]? = some source ∧ (byteOffsets s.slots)[off]? = some bytes ∧
        branch.kind.inRange source bytes = true

/-- `resolve` indexes no slot offset outside the buffer, and what it returns prints labels in
reach. -/
def ResolvesInReach (veneerLines : LabelKind → String → List String) (b : EmitBuffer)
    (funcName : String) : Prop :=
  Resolving.resolve veneerLines (.start b funcName) ≠ .error .slotIndex ∧
    ∀ s, Resolving.resolve veneerLines (.start b funcName) = .ok s → PrintsInReach s.buffer

theorem slotOutOfRange_cases (b : EmitBuffer) (offsets : List Nat) (i : Nat) (slot : Slot) :
    (∃ far, b.slotOutOfRange offsets i slot = .ok far) ∨
      b.slotOutOfRange offsets i slot = .error .slotIndex := by
  unfold EmitBuffer.slotOutOfRange
  split
  · split
    · split
      · exact .inl ⟨_, rfl⟩
      · exact .inr rfl
    · exact .inl ⟨_, rfl⟩
  · exact .inl ⟨_, rfl⟩

/-- One index outside the buffer fails the whole check. -/
theorem outOfRangeFrom_error {offsets : List Nat} {slots : List Slot} {slot : Slot} {i : Nat}
    (member : slot ∈ slots)
    (fails : ∀ i, b.slotOutOfRange offsets i slot = .error .slotIndex) :
    b.outOfRangeFrom offsets i slots = .error .slotIndex := by
  induction slots generalizing i with
  | nil => cases member
  | cons first rest ih =>
    rcases slotOutOfRange_cases b offsets i first with ⟨far, checked⟩ | failed
    · have later : slot ∈ rest := by
        rcases List.mem_cons.mp member with rfl | later
        · rw [fails i] at checked
          cases checked
        · exact later
      rw [LaysOut.outOfRangeFrom_cons checked, ih later]
      rfl
    · rw [EmitBuffer.outOfRangeFrom, failed]
      rfl

theorem resolve_of_outside (isBranch : b.blockBranch k = some (branch, target))
    (isOff : b.labelOffsets target = some off) (outside : b.slots.length < off)
    (funcName : String) :
    Resolving.resolve veneerLines (.start b funcName) = .error .slotIndex := by
  obtain ⟨slot, isSlot, isBlock⟩ := Option.bind_eq_some_iff.mp isBranch
  obtain ⟨rfl, isTarget⟩ := Slot.blockBranch_eq_some.mp isBlock
  have missing : (byteOffsets b.slots)[off]? = none := by
    apply List.getElem?_eq_none
    rw [byteOffsets, length_byteOffsetsFrom]
    exact outside
  have failed : b.outOfRange = .error .slotIndex := by
    apply outOfRangeFrom_error (List.mem_of_getElem? isSlot)
    intro i
    simp only [EmitBuffer.slotOutOfRange, isTarget, isOff, Option.bind_some, missing]
  show (Resolving.relax _ _ _).bind _ = _
  rw [show Resolving.maxRounds = 7 + 1 from rfl, Resolving.relax]
  show ((EmitBuffer.outOfRange b).bind _).bind _ = _
  rw [failed]
  rfl

section Printed

variable {marks : List Mark} {s : EmitBuffer}

theorem resolveLabelOffset_eq (layout : LaysOut veneerLines b marks s) {target : MirBlockIndex}
    {off : Nat} (isOff : b.resolveLabelOffset target = some (some off))
    (le : off ≤ b.slots.length) :
    s.resolveLabelOffset target = some (some (position marks off)) := by
  obtain ⟨root, isRoot, isBound⟩ := Option.map_eq_some_iff.mp isOff
  have same : s.resolved target = b.resolved target := by
    rw [EmitBuffer.resolved, EmitBuffer.resolved, layout.aliases, layout.names]
  rw [EmitBuffer.resolveLabelOffset, same, isRoot, Option.map_some,
    layout.offsets root off isBound le]

/-- A remaining branch of the result, measured to the label that is printed. -/
theorem printsInReach_iff (finished : Finished b) (layout : LaysOut veneerLines b marks s) :
    PrintsInReach s ↔ ∀ k branch target off, k ∉ marked marks →
      b.blockBranch k = some (branch, target) → b.resolveLabelOffset target = some (some off) →
        branch.kind.reaches ((b.relaxation veneerLines).distance (marked marks) k off) = true := by
  have place : ∀ k branch target, b.blockBranch k = some (branch, target) →
      ∃ off, b.resolveLabelOffset target = some (some off) ∧
        s.resolveLabelOffset target = some (some (position marks off)) ∧
        (byteOffsets s.slots)[position marks k]? =
          some ((b.relaxation veneerLines).offset (marked marks) k) ∧
        (byteOffsets s.slots)[position marks off]? =
          some ((b.relaxation veneerLines).offset (marked marks) off) := by
    intro k branch target isBranch
    obtain ⟨root, off, isRoot, _, isBound, le⟩ := finished.printed k branch target isBranch
    obtain ⟨slot, isSlot, _⟩ := Option.bind_eq_some_iff.mp isBranch
    have le' := (List.getElem?_eq_some_iff.mp isSlot).1.le
    have isOff : b.resolveLabelOffset target = some (some off) := by
      rw [EmitBuffer.resolveLabelOffset, isRoot, Option.map_some, isBound]
    exact ⟨off, isOff, resolveLabelOffset_eq layout isOff le,
      layout.byteOffsets_position (layout.length_eq ▸ le'),
      layout.byteOffsets_position (layout.length_eq ▸ le)⟩
  constructor
  · intro prints k branch target off notMarked isBranch isOff
    obtain ⟨off', isOff', printed, here, there⟩ := place k branch target isBranch
    obtain rfl := Option.some.inj (Option.some.inj (isOff.symm.trans isOff'))
    have remains := layout.blockBranch_iff.mpr ⟨k, notMarked, isBranch, rfl⟩
    obtain ⟨off'', source, bytes, printed', here', there', inRange⟩ :=
      prints _ branch target remains
    obtain rfl := Option.some.inj (Option.some.inj (printed.symm.trans printed'))
    obtain rfl := Option.some.inj (here.symm.trans here')
    obtain rfl := Option.some.inj (there.symm.trans there')
    exact inRange
  · intro reach i branch target remains
    obtain ⟨k, notMarked, isBranch, rfl⟩ := layout.blockBranch_iff.mp remains
    obtain ⟨off, isOff, printed, here, there⟩ := place k branch target isBranch
    exact ⟨_, _, _, printed, here, there, reach k branch target off notMarked isBranch isOff⟩

end Printed

/-- The label that is printed for a remaining branch stands where `resolve` looks for its
target: threading has not moved the two apart. -/
def ChecksPrinted (b : EmitBuffer) (target : MirBlockIndex) : Prop :=
  b.resolveLabelOffset target = some (b.labelOffsets target)

/-- A branch whose two labels have been moved apart is measured at an offset of the buffer, and
reaches the printed label unless it gets a veneer. -/
def DriftsInReach (veneerLines : LabelKind → String → List String) (b : EmitBuffer) : Prop :=
  ∀ k branch target, b.blockBranch k = some (branch, target) → ¬ ChecksPrinted b target →
    (∃ own, b.labelOffsets target = some own ∧ own ≤ b.slots.length) ∧
      ((b.relaxation veneerLines).Settled Resolving.maxRounds →
        k ∉ (b.relaxation veneerLines).needed →
          ∀ off, b.resolveLabelOffset target = some (some off) → branch.kind.reaches
            ((b.relaxation veneerLines).distance (b.relaxation veneerLines).needed k off) = true)

section Drift

variable (finished : Finished b) (funcName : String)

include finished

theorem inside_of_drifts (drifts : DriftsInReach veneerLines b) : LaysOut.Inside b := by
  intro k branch target isBranch
  by_cases same : ChecksPrinted b target
  · obtain ⟨root, off, isRoot, -, isBound, le⟩ := finished.printed k branch target isBranch
    rw [ChecksPrinted, EmitBuffer.resolveLabelOffset, isRoot, Option.map_some, isBound] at same
    exact ⟨off, (Option.some.inj same).symm, le⟩
  · exact (drifts k branch target isBranch same).1

theorem drifts_of_resolvesInReach (inReach : ResolvesInReach veneerLines b funcName) :
    DriftsInReach veneerLines b := by
  obtain ⟨noIndex, prints⟩ := inReach
  have inside : LaysOut.Inside b := by
    intro k branch target isBranch
    obtain ⟨off, isOff⟩ := finished.own k branch target isBranch
    refine ⟨off, isOff, ?_⟩
    by_contra outside
    exact noIndex (resolve_of_outside isBranch isOff (not_le.mp outside) funcName)
  intro k branch target isBranch _
  refine ⟨inside k branch target isBranch, fun settled notNeeded off isOff => ?_⟩
  obtain ⟨s, marks, result, layout, isNeeded⟩ :=
    resolve_of_settled finished.named inside funcName settled
  have reach := (printsInReach_iff finished layout).mp (prints s result)
  rw [isNeeded] at reach
  exact reach k branch target off notNeeded isBranch isOff

theorem resolvesInReach_of_drifts (drifts : DriftsInReach veneerLines b) :
    ResolvesInReach veneerLines b funcName := by
  have inside := inside_of_drifts finished drifts
  by_cases settled : (b.relaxation veneerLines).Settled Resolving.maxRounds
  · obtain ⟨s, marks, result, layout, isNeeded⟩ :=
      resolve_of_settled finished.named inside funcName settled
    constructor
    · rw [result]
      exact fun absurd => by cases absurd
    · intro s' result'
      obtain rfl := Except.ok.inj (result.symm.trans result')
      apply (printsInReach_iff finished layout).mpr
      rw [isNeeded]
      intro k branch target off notNeeded isBranch isOff
      by_cases same : ChecksPrinted b target
      · -- the last check of `resolve` has measured this very distance
        exact reaches_of_not_needed settled notNeeded isBranch
          (Option.some.inj (same.symm.trans isOff))
      · exact (drifts k branch target isBranch same).2 settled notNeeded off isOff
  · have failed : Resolving.resolve veneerLines (.start b funcName) = .error .outOfRange :=
      resolve_of_not_settled finished.named inside funcName settled
    constructor
    · rw [failed]
      exact fun absurd => by cases absurd
    · intro s result
      rw [failed] at result
      cases result

end Drift

/-- `resolve` is right about every buffer in which no remaining branch is measured to another
place than its printed label, and otherwise exactly when the branches that are measured
elsewhere happen to be in reach. -/
theorem resolvesInReach_iff (veneerLines : LabelKind → String → List String)
    {blockLabels : List String} {sequence : List EmitCall}
    (calls : CallsBound blockLabels sequence)
    (emitted : EmitBuffer.emit blockLabels true sequence = some b) (funcName : String) :
    ((∀ k branch target, b.blockBranch k = some (branch, target) → ChecksPrinted b target) →
      ResolvesInReach veneerLines b funcName) ∧
    (ResolvesInReach veneerLines b funcName ↔ DriftsInReach veneerLines b) := by
  have finished := finished_of_emit calls emitted
  refine ⟨fun checks => resolvesInReach_of_drifts finished funcName fun k branch target isBranch
    differ => absurd (checks k branch target isBranch) differ,
    drifts_of_resolvesInReach finished funcName, resolvesInReach_of_drifts finished funcName⟩

theorem resolvesInReach_nearCalls :
    ∃ b, EmitBuffer.emit [".L_f_0"] true nearCalls = some b ∧ ResolvesInReach oneLine b "f" := by
  refine ⟨_, rfl, (resolvesInReach_iff oneLine nearCalls_bound rfl "f").1 ?_⟩
  intro k branch target isBranch
  match k with
  | 0 =>
    cases isBranch
    rfl
  | 1 => cases isBranch
  | k + 2 => cases isBranch

/-- A branch to a block that holds only a jump: the jump is threaded. -/
def threadedCalls : List EmitCall :=
  [.putBranch "tbz w0, #0, " "tbnz w0, #0, " 0 ⟨8, 8⟩, .writeStr "nop", .endInst, .bindLabel 0,
    .putUncondBranch "b " 1 .BRANCH26, .bindLabel 2, .writeStr "nop", .endInst, .bindLabel 1,
    .writeStr "ret", .endInst]

theorem threadedCalls_bound : CallsBound [".L_f_0", ".L_f_1", ".L_f_2"] threadedCalls where
  once := by decide
  inRange := by decide
  bound := by decide

theorem threadedCalls_not_inReach :
    CallsBound [".L_f_0", ".L_f_1", ".L_f_2"] threadedCalls ∧
      ∃ b, EmitBuffer.emit [".L_f_0", ".L_f_1", ".L_f_2"] true threadedCalls = some b ∧
        ¬ ResolvesInReach oneLine b "f" := by
  refine ⟨threadedCalls_bound, _, rfl, fun inReach => ?_⟩
  obtain ⟨off, source, bytes, isOff, here, there, inRange⟩ := inReach.2 _ rfl 0 _ 0 rfl
  cases isOff
  cases here
  cases there
  revert inRange
  decide

end AnonCompiler.Mir
