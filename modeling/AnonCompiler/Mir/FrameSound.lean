import AnonCompiler.Mir.FrameRestore

/-!
# What the epilogue gives back

The registers that are saved are sorted, so that a float register is restored before the
vector register of its number.  The last access to a register decides: a register that was
saved as a float alone loses its upper half.
-/

set_option autoImplicit false

namespace AnonCompiler.Mir

open AnonCompiler.Ir AnonCompiler.Lib

/-! ## The list of saved registers -/

section Sorted

variable {p q : PReg} {regs : List PReg}

theorem mem_dedupRegs : p ∈ dedupRegs regs ↔ p ∈ regs := by
  induction regs using dedupRegs.induct with
  | case1 => exact Iff.rfl
  | case2 q => exact Iff.rfl
  | case3 q rest ih =>
    rw [dedupRegs, if_pos rfl, ih]
    simp
  | case4 q next rest differ ih =>
    rw [dedupRegs, if_neg differ, List.mem_cons, ih]
    simp

/-- A sorted list without neighbouring duplicates is strictly sorted. -/
theorem sorted_dedupRegs (sorted : regs.Pairwise fun p q => p.index ≤ q.index) :
    (dedupRegs regs).Pairwise fun p q => p.index < q.index := by
  induction regs using dedupRegs.induct with
  | case1 => exact .nil
  | case2 q => exact List.pairwise_singleton _ _
  | case3 q rest ih =>
    rw [dedupRegs, if_pos rfl]
    exact ih (List.pairwise_cons.mp sorted).2
  | case4 q next rest differ ih =>
    obtain ⟨first, later⟩ := List.pairwise_cons.mp sorted
    rw [dedupRegs, if_neg differ]
    refine List.pairwise_cons.mpr ⟨fun r member => ?_, ih later⟩
    have isLater := mem_dedupRegs.mp member
    have above : q.index ≤ next.index := first next List.mem_cons_self
    have notSame : q.index ≠ next.index := fun same => differ (index_injective same)
    rcases List.mem_cons.mp isLater with rfl | isLater
    · omega
    · have := (List.pairwise_cons.mp later).1 r isLater
      omega

theorem sorted_calleeSaved (output : AllocatorOutput) :
    output.calleeSaved.Pairwise fun p q => p.index < q.index :=
  sorted_dedupRegs (List.pairwise_insertionSort (fun p q : PReg => p.index ≤ q.index) _)

theorem isCalleeSaved_of_mem {output : AllocatorOutput} (member : p ∈ output.calleeSaved) :
    p.isCalleeSaved = true := by
  have isNamed := mem_dedupRegs.mp member
  rw [List.mem_insertionSort] at isNamed
  exact (List.mem_filter.mp isNamed).2

end Sorted

/-! ## Memory above the stack pointer -/

section Saves

variable {s t : FrameState} {slots : List (PReg × Int)} {slot : PReg × Int} {sp place : BitVec 64}
  {a : Area} {high : Nat} {r : Reg}

/-- The place lies in the area, which is counted from the stack pointer. -/
def Covers (sp : BitVec 64) (a : Area) (place : BitVec 64) : Prop :=
  a.start ≤ (place - sp).toNat ∧ (place - sp).toNat < a.stop

theorem Covers.not_apart {b : Area} (inside : Covers sp a place) (apart : a.Apart b) :
    ¬ Covers sp b place := by
  intro other
  unfold Covers Area.stop at *
  unfold Area.Apart Area.stop at apart
  omega

/-- The places of an area, one after the other. -/
theorem covers_offset (fits : a.stop ≤ 2 ^ 64) {i : Nat} (below : i < a.size) :
    Covers sp a (sp + BitVec.ofNat 64 a.start + BitVec.ofNat 64 i) := by
  unfold Covers Area.stop at *
  rw [BitVec.toNat_sub, BitVec.toNat_add, BitVec.toNat_add, BitVec.toNat_ofNat, BitVec.toNat_ofNat]
  omega

theorem byteSize_clobberMemoryType (p : PReg) :
    (clobberMemoryType p).byteSize = clobberSlotSize p := by
  unfold clobberMemoryType clobberSlotSize
  cases p.regClass <;> rfl

theorem ofInt_slot (nonneg : 0 ≤ slot.2) :
    BitVec.ofInt 64 slot.2 = BitVec.ofNat 64 (slotArea slot).start := by
  rw [slotArea, ← BitVec.ofInt_natCast, Int.toNat_of_nonneg nonneg]

theorem saveSlot_mem (nonneg : 0 ≤ slot.2) : (saveSlot slot s).mem =
    s.mem.write (s.word stackReg + BitVec.ofNat 64 (slotArea slot).start) (slotArea slot).size
      (s.regs slot.1.reg.named) := by
  rw [saveSlot, stored, byteSize_clobberMemoryType, ofInt_slot nonneg]
  rfl

def saves (slots : List (PReg × Int)) (s : FrameState) : FrameState :=
  slots.foldl (fun s slot => saveSlot slot s) s

def restores (slots : List (PReg × Int)) (s : FrameState) : FrameState :=
  slots.foldl (fun s slot => restoreSlot slot s) s

theorem saves_regs : (saves slots s).regs = s.regs := by
  induction slots generalizing s with
  | nil => rfl
  | cons slot slots ih => exact ih

theorem saves_outside (nonneg : ∀ slot ∈ slots, 0 ≤ slot.2)
    (fits : ∀ slot ∈ slots, (slotArea slot).stop ≤ 2 ^ 64)
    (outside : ∀ slot ∈ slots, ¬ Covers (s.word stackReg) (slotArea slot) place) :
    (saves slots s).mem place = s.mem place := by
  induction slots generalizing s with
  | nil => rfl
  | cons slot slots ih =>
    have later := ih (s := saveSlot slot s)
      (fun slot member => nonneg slot (List.mem_cons_of_mem _ member))
      (fun slot member => fits slot (List.mem_cons_of_mem _ member))
      (fun slot member => outside slot (List.mem_cons_of_mem _ member))
    refine later.trans ?_
    rw [saveSlot_mem (nonneg slot List.mem_cons_self)]
    exact Bytes.write_apply (fits slot List.mem_cons_self) (outside slot List.mem_cons_self)

/-- In the slot of a register there is what the slot holds of it. -/
theorem saves_read (nonneg : ∀ slot ∈ slots, 0 ≤ slot.2)
    (packed : Area.Packed 0 high (slots.map slotArea)) (fits : high ≤ 2 ^ 64)
    (member : slot ∈ slots) :
    (saves slots s).mem.read (s.word stackReg + BitVec.ofNat 64 (slotArea slot).start)
      (slotArea slot).size =
        ((s.regs slot.1.reg.named).setWidth (8 * (slotArea slot).size)).setWidth 128 := by
  induction slots generalizing s with
  | nil => cases member
  | cons first slots ih =>
    have inside : ∀ slot ∈ first :: slots, (slotArea slot).stop ≤ 2 ^ 64 := fun slot isSlot =>
      (packed.inside _ (List.mem_map_of_mem isSlot)).2.trans fits
    rw [List.map_cons] at packed
    obtain ⟨apart, restApart⟩ := List.pairwise_cons.mp packed.apart
    have restNonneg : ∀ slot ∈ slots, 0 ≤ slot.2 := fun slot isSlot =>
      nonneg slot (List.mem_cons_of_mem _ isSlot)
    rcases List.mem_cons.mp member with rfl | later
    · -- the later slots are elsewhere
      have size : (slotArea slot).size ≤ 16 := by
        change clobberSlotSize slot.1 ≤ 16
        unfold clobberSlotSize
        split <;> decide
      have same : (saves slots (saveSlot slot s)).mem.read
          (s.word stackReg + BitVec.ofNat 64 (slotArea slot).start) (slotArea slot).size =
          (saveSlot slot s).mem.read
            (s.word stackReg + BitVec.ofNat 64 (slotArea slot).start) (slotArea slot).size := by
        refine Bytes.read_congr fun i below => ?_
        refine saves_outside restNonneg (fun slot isSlot =>
          inside slot (List.mem_cons_of_mem _ isSlot)) fun other isOther => ?_
        exact (covers_offset (inside slot List.mem_cons_self) below).not_apart
          (apart _ (List.mem_map_of_mem isOther))
      refine same.trans ?_
      rw [saveSlot_mem (nonneg slot List.mem_cons_self)]
      exact Bytes.read_write_self
    · have restPacked : Area.Packed 0 high (slots.map slotArea) :=
        ⟨restApart, fun a isArea => packed.inside a (List.mem_cons_of_mem _ isArea)⟩
      exact ih (s := saveSlot first s) restNonneg restPacked later

theorem restores_mem : (restores slots s).mem = s.mem := by
  induction slots generalizing s with
  | nil => rfl
  | cons slot slots ih => exact ih (s := restoreSlot slot s)

theorem restores_other (other : ∀ slot ∈ slots, slot.1.reg.named ≠ r) :
    (restores slots s).regs r = s.regs r := by
  induction slots generalizing s with
  | nil => rfl
  | cons slot slots ih =>
    refine (ih fun slot member => other slot (List.mem_cons_of_mem _ member)).trans ?_
    exact FrameState.set_of_ne s (other slot List.mem_cons_self).symm _

/-- The last access to a register decides. -/
theorem restores_last {before after : List (PReg × Int)}
    (notSp : ∀ slot ∈ before, slot.1.reg.named ≠ stackReg) (nonneg : 0 ≤ slot.2)
    (last : ∀ other ∈ after, other.1.reg.named ≠ slot.1.reg.named) :
    (restores (before ++ slot :: after) s).regs slot.1.reg.named =
      s.mem.read (s.word stackReg + BitVec.ofNat 64 (slotArea slot).start)
        (slotArea slot).size := by
  have split : restores (before ++ slot :: after) s =
      restores after (restoreSlot slot (restores before s)) := by
    rw [restores, List.foldl_append, List.foldl_cons]
    rfl
  have sp : (restores before s).word stackReg = s.word stackReg :=
    congrArg (Value.read .size64) (restores_other notSp)
  rw [split, restores_other last, restoreSlot, loaded, FrameState.set_self, restores_mem, sp,
    byteSize_clobberMemoryType, ofInt_slot nonneg]
  rfl

end Saves

/-! ## Prologue and epilogue -/

section Code

variable {checks : Bool} {l : Lowered} {output : AllocatorOutput} {frame : FrameLayout}
  {s t : FrameState} {amount : Int} {r : Reg}

def FrameLayout.lowered (frame : FrameLayout) : Int := (frame.totalSize : Int) - frame.setupAreaSize

def setupImage (frame : FrameLayout) (s : FrameState) : FrameState :=
  if frame.setupAreaSize ≠ 0 then fpSet frame.totalSize (spMoved (-frame.lowered) (pushed s))
  else spMoved (-frame.lowered) s

def prologueImage (frame : FrameLayout) (s : FrameState) : FrameState :=
  saves frame.clobberSlots (setupImage frame s)

def epilogueImage (frame : FrameLayout) (s : FrameState) : FrameState :=
  let moved := spMoved frame.lowered (restores frame.clobberSlots s)
  if frame.setupAreaSize ≠ 0 then popped moved else moved

theorem map_fst_clobberSlots (base : Int) (offset : Nat) (regs : List PReg) :
    (clobberSlots base offset regs).map Prod.fst = regs := by
  induction regs generalizing offset with
  | nil => rfl
  | cons p regs ih => rw [clobberSlots, List.map_cons, ih]

section

variable (laid : Laid l output frame)
include laid

theorem Laid.regs : frame.clobberSlots.map Prod.fst = output.calleeSaved :=
  (map_fst_clobberSlots _ _ _).trans laid.calleeSaved

theorem Laid.saved :
    ∀ slot ∈ frame.clobberSlots, slot.1.isCalleeSaved = true := fun _ member =>
  isCalleeSaved_of_mem (laid.regs ▸ List.mem_map_of_mem member)

theorem Laid.nodup : (frame.clobberSlots.map Prod.fst).Nodup :=
  laid.regs ▸ (sorted_calleeSaved output).imp fun {p q} (below : p.index < q.index) same =>
    Nat.lt_irrefl _ (same ▸ below)

theorem runs_prologue : ∃ insts, frame.genPrologue = some insts ∧
    Runs checks frame insts (prologueImage frame) := by
  obtain ⟨adjust, isAdjust, runsAdjust⟩ := @runs_spAdjust checks frame (-frame.lowered)
  have save : Runs checks frame frame.genClobberSave (saves frame.clobberSlots) :=
    runs_clobberSave laid.saved laid.nodup
  have respects : Respects (saves frame.clobberSlots) := respects_foldl saveSlot
    (fun slot isSaved => respects_stored (calleeSaved_named isSaved).1) laid.saved
  change appendSpAdjust (-((frame.totalSize : Int) - frame.setupAreaSize)) = _ at isAdjust
  by_cases setup : frame.setupAreaSize ≠ 0
  · obtain ⟨setFp, isSetFp, runsSetFp⟩ := @runs_fpSet checks frame frame.totalSize
    obtain ⟨offset, isOffset⟩ : ∃ offset, SImm7Scaled.new (-16) 8 = some offset := ⟨_, rfl⟩
    have push := @runs_push checks frame offset (byteOffset_new isOffset)
    have all := ((push.append runsAdjust respects_spMoved).append runsSetFp respects_fpSet).append
      save respects
    refine ⟨_, ?_, all.congr fun s => ?_⟩
    · simp only [FrameLayout.genPrologue, FrameLayout.genPrologueFrameSetup, if_pos setup, isOffset,
        isAdjust, isSetFp, Option.map_some, Option.bind_eq_bind, Option.bind_some]
    · rw [prologueImage, setupImage, if_pos setup]
      rfl
  · refine ⟨_, ?_, (runsAdjust.append save respects).congr fun s => ?_⟩
    · simp only [FrameLayout.genPrologue, FrameLayout.genPrologueFrameSetup, if_neg setup, isAdjust,
        Option.bind_eq_bind, Option.bind_some, List.nil_append, List.map_nil, List.append_nil]
    · rw [prologueImage, setupImage, if_neg setup]
      rfl

theorem runs_epilogue : ∃ insts, frame.genEpilogue = some insts ∧
    Runs checks frame insts (epilogueImage frame) := by
  obtain ⟨adjust, isAdjust, runsAdjust⟩ := @runs_spAdjust checks frame frame.lowered
  have restore : Runs checks frame frame.genClobberRestore (restores frame.clobberSlots) :=
    runs_clobberRestore laid.saved laid.nodup
  change appendSpAdjust ((frame.totalSize : Int) - frame.setupAreaSize) = _ at isAdjust
  by_cases setup : frame.setupAreaSize ≠ 0
  · obtain ⟨offset, isOffset⟩ : ∃ offset, SImm7Scaled.new 16 8 = some offset := ⟨_, rfl⟩
    have pop := @runs_pop checks frame offset (byteOffset_new isOffset)
    refine ⟨_, ?_, (restore.append (runsAdjust.append pop respects_popped)
      (fun s t like => respects_popped _ _ (respects_spMoved _ _ like))).congr fun s => ?_⟩
    · simp only [FrameLayout.genEpilogue, FrameLayout.genEpilogueFrameRestore, if_pos setup,
        isOffset, isAdjust, Option.map_some, Option.bind_eq_bind, Option.bind_some]
    · simp only [epilogueImage, if_pos setup, Function.comp_apply]
  · refine ⟨_, ?_, (restore.append runsAdjust respects_spMoved).congr fun s => ?_⟩
    · simp only [FrameLayout.genEpilogue, FrameLayout.genEpilogueFrameRestore, if_neg setup,
        isAdjust, Option.bind_eq_bind, Option.bind_some, List.append_nil]
    · simp only [epilogueImage, if_neg setup, Function.comp_apply]

end

/-! ### The images -/

theorem spMoved_word : (spMoved amount s).word stackReg =
    s.word stackReg + BitVec.ofInt 64 amount := by
  unfold spMoved
  split
  · next zero =>
      rw [zero]
      exact (BitVec.add_zero _).symm
  · exact FrameState.word_set_self _ _ _

theorem spMoved_mem : (spMoved amount s).mem = s.mem := by
  unfold spMoved
  split <;> rfl

theorem spMoved_regs (other : r ≠ stackReg) : (spMoved amount s).regs r = s.regs r := by
  unfold spMoved
  split
  · rfl
  · exact FrameState.set_of_ne s other _

theorem pushed_word : (pushed s).word stackReg = s.word stackReg + BitVec.ofInt 64 (-16) :=
  FrameState.word_set_self _ _ _

theorem add_ofInt (base : BitVec 64) (first second : Int) :
    base + BitVec.ofInt 64 first + BitVec.ofInt 64 second =
      base + BitVec.ofInt 64 (first + second) := by
  rw [BitVec.add_assoc, ← BitVec.ofInt_add]

theorem setupImage_word (laid : Laid l output frame) : (setupImage frame s).word stackReg =
    s.word stackReg + BitVec.ofInt 64 (-frame.totalSize) := by
  have setup := laid.setup
  unfold setupImage FrameLayout.lowered
  split
  · next isSetup =>
      rw [fpSet, FrameState.word_set_of_ne _ (by decide), spMoved_word, pushed_word, add_ofInt]
      refine congrArg (s.word stackReg + BitVec.ofInt 64 ·) ?_
      omega
  · next noSetup =>
      rw [spMoved_word]
      refine congrArg (s.word stackReg + BitVec.ofInt 64 ·) ?_
      omega

/-- The setup writes the stack pointer and the frame pointer only. -/
theorem setupImage_regs (notSp : r ≠ stackReg) (notFp : r ≠ intReg fp) :
    (setupImage frame s).regs r = s.regs r := by
  unfold setupImage
  split
  · rw [fpSet, FrameState.set_of_ne _ notFp, spMoved_regs notSp]
    exact FrameState.set_of_ne _ notSp _
  · exact spMoved_regs notSp

/-! ## The body -/

/-- What the code between prologue and epilogue keeps.  Allocated code writes no callee-saved
register that is not in the list, under no name. -/
structure Body (frame : FrameLayout) (p b : FrameState) : Prop where
  sp : b.word stackReg = p.word stackReg
  slots : ∀ slot ∈ frame.clobberSlots, ∀ place,
    Covers (p.word stackReg) (slotArea slot) place → b.mem place = p.mem place
  setup : frame.setupAreaSize ≠ 0 → ∀ place,
    Covers (p.word stackReg) ⟨frame.totalSize - 16, 16⟩ place → b.mem place = p.mem place
  links : frame.setupAreaSize = 0 →
    b.word (intReg fp) = p.word (intReg fp) ∧ b.word (intReg lr) = p.word (intReg lr)
  unsaved : ∀ q : PReg, q.isCalleeSaved = true →
    (∀ p ∈ frame.calleeSaved, p.reg.named ≠ q.reg.named) →
      b.regs q.reg.named = p.regs q.reg.named

/-- What a caller finds again: of an integer or a float register 64 bits, of a vector register all
of it. -/
structure Restored (s t : FrameState) : Prop where
  sp : t.word stackReg = s.word stackReg
  fp : t.word (intReg fp) = s.word (intReg fp)
  lr : t.word (intReg lr) = s.word (intReg lr)
  saved : ∀ q : PReg, q.isCalleeSaved = true →
    (t.regs q.reg.named).setWidth (8 * clobberSlotSize q) =
      (s.regs q.reg.named).setWidth (8 * clobberSlotSize q)

/-- Prologue and epilogue are emitted; the frame begins below the caller's, and whatever the body
does in between, everything is restored. -/
def RestoresAll (checks : Bool) (frame : FrameLayout) : Prop :=
  ∃ prologue epilogue, frame.genPrologue.bind (emitLegalized checks frame) = some prologue ∧
    frame.genEpilogue.bind (emitLegalized checks frame) = some epilogue ∧
      ∀ s, ∃ p, execSaves s prologue = some p ∧
        p.word stackReg = s.word stackReg + BitVec.ofInt 64 (-frame.totalSize) ∧
        ∀ b, Body frame p b → ∃ t, execSaves b epilogue = some t ∧ Restored s t

/-- A float register is saved together with the vector register of its number. -/
def WholeVectors (regs : List PReg) : Prop :=
  ∀ p ∈ regs, p.regClass = .float → ⟨p.hwEnc, .vector⟩ ∈ regs

instance decidableWholeVectors (regs : List PReg) : Decidable (WholeVectors regs) :=
  inferInstanceAs (Decidable (∀ p ∈ regs, p.regClass = .float → ⟨p.hwEnc, .vector⟩ ∈ regs))

/-! ### The registers -/

theorem exists_last {slots : List (PReg × Int)} (named : ∃ slot ∈ slots, slot.1.reg.named = r) :
    ∃ before last after, slots = before ++ last :: after ∧ last.1.reg.named = r ∧
      ∀ other ∈ after, other.1.reg.named ≠ r := by
  induction slots with
  | nil =>
    obtain ⟨_, member, -⟩ := named
    cases member
  | cons first slots ih =>
    by_cases later : ∃ slot ∈ slots, slot.1.reg.named = r
    · obtain ⟨before, last, after, rfl, found⟩ := ih later
      exact ⟨first :: before, last, after, rfl, found⟩
    · obtain ⟨slot, member, isNamed⟩ := named
      rcases List.mem_cons.mp member with rfl | inRest
      · exact ⟨[], slot, slots, rfl, isNamed, fun x isX same => later ⟨x, isX, same⟩⟩
      · exact absurd ⟨slot, inRest, isNamed⟩ later

/-- Another register with the name of a vector register is the float register of its number. -/
theorem eq_of_named {p q : PReg} (isVector : q.regClass = .vector)
    (same : p.reg.named = q.reg.named) : p = q ∨ p = ⟨q.hwEnc, .float⟩ := by
  obtain ⟨hwEnc, regClass⟩ := p
  obtain ⟨hwEnc', regClass'⟩ := q
  cases isVector
  cases regClass with
  | int => simp [PReg.reg, Reg.named] at same
  | float | vector =>
    simp only [PReg.reg, Reg.named, PReg.index, RegClass.code, Reg.mk.injEq, and_true] at same
    have sameEnc : hwEnc = hwEnc' := BitVec.eq_of_toNat_eq (by omega)
    subst sameEnc
    simp

theorem index_float_lt (hwEnc : BitVec 6) :
    (PReg.mk hwEnc .float).index < (PReg.mk hwEnc .vector).index := by
  simp [PReg.index, RegClass.code]

/-- The last slot of a register holds as much of it as the caller finds again. -/
theorem size_of_last {slots before after : List (PReg × Int)} {last : PReg × Int} {q : PReg}
    (sorted : (slots.map Prod.fst).Pairwise fun p q => p.index < q.index)
    (whole : WholeVectors (slots.map Prod.fst)) (split : slots = before ++ last :: after)
    (isNamed : last.1.reg.named = q.reg.named)
    (isLast : ∀ other ∈ after, other.1.reg.named ≠ q.reg.named) :
    clobberSlotSize q ≤ clobberSlotSize last.1 := by
  cases isClass : q.regClass with
  | vector =>
    rcases eq_of_named isClass isNamed with same | isFloat
    · exact Nat.le_of_eq (same ▸ rfl)
    · -- the vector register would come later
      have lastMember : last.1 ∈ slots.map Prod.fst := by simp [split]
      have vectorMember := whole last.1 lastMember (by rw [isFloat])
      have isQ : (⟨last.1.hwEnc, .vector⟩ : PReg) = q := by
        rw [isFloat, ← isClass]
      rw [isQ, split, List.map_append, List.map_cons] at vectorMember
      rw [split, List.map_append, List.map_cons] at sorted
      have above : last.1.index < q.index := by
        rw [isFloat, ← isQ, isFloat]
        exact index_float_lt _
      rcases List.mem_append.mp vectorMember with earlier | later
      · have := (List.pairwise_append.mp sorted).2.2 q earlier last.1 List.mem_cons_self
        omega
      · rcases List.mem_cons.mp later with same | later
        · exact Nat.le_of_eq (same ▸ rfl)
        · obtain ⟨other, isOther, same⟩ := List.mem_map.mp later
          exact absurd (congrArg (fun p : PReg => p.reg.named) same) (isLast other isOther)
  | int | float =>
    have size : clobberSlotSize q = 8 := by rw [clobberSlotSize, isClass]
    rw [size, clobberSlotSize]
    split <;> decide

/-! ### Running the epilogue -/

variable {p b : FrameState}

theorem Laid.packed (laid : Laid l output frame) :
    Area.Packed 0 (frame.totalSize - frame.setupAreaSize) (frame.clobberSlots.map slotArea) :=
  laid.clobberSlots.2.mono (Nat.zero_le _) (Nat.le_refl _)

theorem Laid.small (laid : Laid l output frame) : frame.totalSize ≤ 2 ^ 64 := by
  have := laid.total
  have := laid.fits
  omega

theorem prologueImage_word :
    (prologueImage frame s).word stackReg = (setupImage frame s).word stackReg := by
  rw [prologueImage, FrameState.word, saves_regs, FrameState.word]

section

variable (laid : Laid l output frame) (like : Like p (prologueImage frame s))
  (body : Body frame p b)
include laid like body

/-- The body finds the registers of the caller in their slots, and so does the epilogue. -/
theorem read_slot {slot : PReg × Int} (member : slot ∈ frame.clobberSlots) :
    b.mem.read (b.word stackReg + BitVec.ofNat 64 (slotArea slot).start) (slotArea slot).size =
      ((s.regs slot.1.reg.named).setWidth (8 * (slotArea slot).size)).setWidth 128 := by
  have fits : frame.totalSize - frame.setupAreaSize ≤ 2 ^ 64 := (Nat.sub_le _ _).trans laid.small
  have inside : (slotArea slot).stop ≤ 2 ^ 64 :=
    (laid.packed.inside _ (List.mem_map_of_mem member)).2.trans fits
  obtain ⟨-, notSp, notFp, -⟩ := calleeSaved_named (laid.saved slot member)
  have sp : p.word stackReg = (setupImage frame s).word stackReg :=
    (like.word stackReg_kept).trans prologueImage_word
  have same : b.mem.read (b.word stackReg + BitVec.ofNat 64 (slotArea slot).start)
      (slotArea slot).size = p.mem.read (p.word stackReg + BitVec.ofNat 64 (slotArea slot).start)
        (slotArea slot).size := by
    rw [body.sp]
    exact Bytes.read_congr fun i below => body.slots slot member _ (covers_offset inside below)
  rw [same, like.mem, sp, prologueImage, saves_read laid.clobberSlots.1 laid.packed fits member,
    setupImage_regs notSp notFp]

/-- What is pushed is still there before it is popped. -/
theorem mem_pushed (setup : frame.setupAreaSize ≠ 0) {i : Nat} (below : i < 16) :
    b.mem (s.word stackReg + BitVec.ofInt 64 (-16) + BitVec.ofNat 64 i) =
      (pushed s).mem (s.word stackReg + BitVec.ofInt 64 (-16) + BitVec.ofNat 64 i) := by
  have isSetup := laid.setup
  have total := laid.total
  have small := laid.small
  have sp : p.word stackReg = (setupImage frame s).word stackReg :=
    (like.word stackReg_kept).trans prologueImage_word
  have place : s.word stackReg + BitVec.ofInt 64 (-16) =
      p.word stackReg + BitVec.ofNat 64 (frame.totalSize - 16) := by
    rw [sp, setupImage_word laid, ← BitVec.ofInt_natCast, add_ofInt]
    refine congrArg (s.word stackReg + BitVec.ofInt 64 ·) ?_
    omega
  have covered : Covers (p.word stackReg) ⟨frame.totalSize - 16, 16⟩
      (p.word stackReg + BitVec.ofNat 64 (frame.totalSize - 16) + BitVec.ofNat 64 i) := by
    refine covers_offset (a := ⟨frame.totalSize - 16, 16⟩) ?_ below
    change frame.totalSize - 16 + 16 ≤ _
    omega
  have setupMem : (setupImage frame s).mem = (pushed s).mem := by
    rw [setupImage, if_pos setup, fpSet]
    exact spMoved_mem
  rw [place, body.setup setup _ covered, like.mem, prologueImage, ← setupMem]
  refine saves_outside laid.clobberSlots.1 (fun slot member => ?_) fun slot member inside => ?_
  · exact (laid.packed.inside _ (List.mem_map_of_mem member)).2.trans
      ((Nat.sub_le _ _).trans small)
  · rw [← sp] at inside
    refine inside.not_apart (.inl ?_) covered
    have top := (laid.packed.inside _ (List.mem_map_of_mem member)).2
    dsimp only
    omega

theorem read_fp (setup : frame.setupAreaSize ≠ 0) :
    b.mem.read (s.word stackReg + BitVec.ofInt 64 (-16)) 8 =
      ((s.regs (intReg fp)).setWidth 64).setWidth 128 := by
  have same := Bytes.read_congr fun i (below : i < 8) =>
    mem_pushed laid like body setup (below.trans (by decide))
  rw [same]
  change (((s.mem.write _ 8 _).write _ 8 _).read _ 8 : Value) = _
  rw [Bytes.write_comm (by decide)]
  exact Bytes.read_write_self

theorem read_lr (setup : frame.setupAreaSize ≠ 0) :
    b.mem.read (s.word stackReg + BitVec.ofInt 64 (-16) + BitVec.ofNat 64 8) 8 =
      ((s.regs (intReg lr)).setWidth 64).setWidth 128 := by
  have same : b.mem.read (s.word stackReg + BitVec.ofInt 64 (-16) + BitVec.ofNat 64 8) 8 =
      (pushed s).mem.read (s.word stackReg + BitVec.ofInt 64 (-16) + BitVec.ofNat 64 8) 8 := by
    refine Bytes.read_congr fun i below => ?_
    have here := mem_pushed laid like body setup (show 8 + i < 16 by omega)
    rwa [BitVec.ofNat_add, ← BitVec.add_assoc] at here
  rw [same]
  exact Bytes.read_write_self

end

/-- The epilogue leaves in a register what was loaded into it last. -/
theorem epilogueImage_regs (notSp : r ≠ stackReg) (notFp : r ≠ intReg fp) (notLr : r ≠ intReg lr) :
    (epilogueImage frame b).regs r = (restores frame.clobberSlots b).regs r := by
  simp only [epilogueImage]
  split
  · rw [popped, FrameState.set_of_ne _ notSp, FrameState.set_of_ne _ notLr,
      FrameState.set_of_ne _ notFp]
    exact spMoved_regs notSp
  · exact spMoved_regs notSp

theorem restores_word (laid : Laid l output frame) {r : Reg}
    (other : r = stackReg ∨ r = intReg fp ∨ r = intReg lr) :
    (restores frame.clobberSlots b).word r = b.word r := by
  refine congrArg (Value.read .size64) (restores_other fun slot member same => ?_)
  obtain ⟨-, notSp, notFp, notLr⟩ := calleeSaved_named (laid.saved slot member)
  rcases other with rfl | rfl | rfl
  · exact notSp same
  · exact notFp same
  · exact notLr same

/-- The stack pointer before the frame pointer and the link register are popped. -/
theorem moved_word (laid : Laid l output frame) (like : Like p (prologueImage frame s))
    (body : Body frame p b) :
    (spMoved frame.lowered (restores frame.clobberSlots b)).word stackReg =
      s.word stackReg + BitVec.ofInt 64 (-frame.setupAreaSize) := by
  rw [spMoved_word, restores_word laid (.inl rfl), body.sp, like.word stackReg_kept,
    prologueImage_word, setupImage_word laid, add_ofInt, FrameLayout.lowered]
  refine congrArg (s.word stackReg + BitVec.ofInt 64 ·) ?_
  omega

theorem restored_links (laid : Laid l output frame) (like : Like p (prologueImage frame s))
    (body : Body frame p b) : (epilogueImage frame b).word stackReg = s.word stackReg ∧
      (epilogueImage frame b).word (intReg fp) = s.word (intReg fp) ∧
      (epilogueImage frame b).word (intReg lr) = s.word (intReg lr) := by
  have moved := moved_word laid like body
  simp only [epilogueImage]
  rcases laid.setup with isSetup | ⟨noSetup, -⟩
  · have setup : frame.setupAreaSize ≠ 0 := by omega
    have mem : (spMoved frame.lowered (restores frame.clobberSlots b)).mem = b.mem :=
      spMoved_mem.trans restores_mem
    have moved : (spMoved frame.lowered (restores frame.clobberSlots b)).word stackReg =
        s.word stackReg + BitVec.ofInt 64 (-16) := by
      rw [moved, isSetup]
      rfl
    have low : Value.read .size64 (((s.regs (intReg fp)).setWidth 64).setWidth 128) =
        s.word (intReg fp) := @Value.read_written .size64 _
    have high : Value.read .size64 (((s.regs (intReg lr)).setWidth 64).setWidth 128) =
        s.word (intReg lr) := @Value.read_written .size64 _
    simp only [if_pos setup, popped, moved, mem]
    refine ⟨?_, ?_, ?_⟩
    · rw [FrameState.word_set_self, add_ofInt]
      exact BitVec.add_zero _
    · rw [FrameState.word_set_of_ne _ (by decide), FrameState.word_set_of_ne _ (by decide),
        FrameState.word, FrameState.set_self]
      exact (congrArg (Value.read .size64) (read_fp laid like body setup)).trans low
    · rw [FrameState.word_set_of_ne _ (by decide), FrameState.word, FrameState.set_self]
      exact (congrArg (Value.read .size64) (read_lr laid like body setup)).trans high
  · have setup : ¬ frame.setupAreaSize ≠ 0 := fun some => some noSetup
    rw [noSetup] at moved
    simp only [if_neg setup]
    obtain ⟨bodyFp, bodyLr⟩ := body.links noSetup
    have unmoved {r : Reg} (other : r ≠ stackReg) (isLink : r = intReg fp ∨ r = intReg lr) :
        (spMoved frame.lowered (restores frame.clobberSlots b)).word r = b.word r :=
      (congrArg (Value.read .size64) (spMoved_regs other)).trans (restores_word laid (.inr isLink))
    have kept {r : Reg} (other : r ≠ stackReg) (notScratch : r ∉ intPostRaScratch.map intReg) :
        p.word r = s.word r := by
      rw [like.word notScratch, prologueImage, FrameState.word, saves_regs, setupImage,
        if_neg setup, spMoved_regs other, FrameState.word]
    refine ⟨moved.trans (BitVec.add_zero _), ?_, ?_⟩
    · rw [unmoved (by decide) (.inl rfl), bodyFp, kept (by decide) (by decide)]
    · rw [unmoved (by decide) (.inr rfl), bodyLr, kept (by decide) (by decide)]

theorem setWidth_of_le (v : Value) {small large : Nat} (fits : small ≤ large) (top : small ≤ 128) :
    ((v.setWidth large).setWidth 128).setWidth small = v.setWidth small := by
  refine BitVec.eq_of_getLsbD_eq fun i inside => ?_
  simp only [BitVec.getLsbD_setWidth]
  simp [inside, show i < 128 by omega, show i < large by omega]

/-- A saved register has got back what the last slot of its name saves. -/
theorem restored_last (laid : Laid l output frame) (like : Like p (prologueImage frame s))
    (body : Body frame p b) {r : Reg}
    (named : ∃ slot ∈ frame.clobberSlots, slot.1.reg.named = r) :
    ∃ before last after, frame.clobberSlots = before ++ last :: after ∧ last.1.reg.named = r ∧
      (∀ other ∈ after, other.1.reg.named ≠ r) ∧ (restores frame.clobberSlots b).regs r =
        ((s.regs r).setWidth (8 * (slotArea last).size)).setWidth 128 := by
  obtain ⟨before, last, after, split, isNamed, isLast⟩ := exists_last named
  have member : last ∈ frame.clobberSlots := by simp [split]
  have beforeSaved : ∀ slot ∈ before, slot.1.reg.named ≠ stackReg := fun slot isBefore =>
    (calleeSaved_named (laid.saved slot (by simp [split, isBefore]))).2.1
  have loaded := restores_last (s := b) beforeSaved (laid.clobberSlots.1 last member)
    (fun other isAfter => isNamed ▸ isLast other isAfter)
  rw [← split, isNamed, read_slot laid like body member, isNamed] at loaded
  exact ⟨before, last, after, split, isNamed, isLast, loaded⟩

/-- Registers that are saved whole are restored. -/
theorem restored_regs (laid : Laid l output frame) (whole : WholeVectors output.calleeSaved)
    (like : Like p (prologueImage frame s)) (body : Body frame p b) {q : PReg}
    (saved : q.isCalleeSaved = true) :
    ((epilogueImage frame b).regs q.reg.named).setWidth (8 * clobberSlotSize q) =
      (s.regs q.reg.named).setWidth (8 * clobberSlotSize q) := by
  obtain ⟨notScratch, notSp, notFp, notLr⟩ := calleeSaved_named saved
  rw [epilogueImage_regs notSp notFp notLr]
  by_cases named : ∃ slot ∈ frame.clobberSlots, slot.1.reg.named = q.reg.named
  · obtain ⟨before, last, after, split, isNamed, isLast, loaded⟩ :=
      restored_last laid like body named
    have size : clobberSlotSize q ≤ clobberSlotSize last.1 :=
      size_of_last (laid.regs ▸ sorted_calleeSaved output) (laid.regs ▸ whole) split isNamed isLast
    rw [loaded]
    have widest : clobberSlotSize q ≤ 16 := by
      rw [clobberSlotSize]
      split <;> decide
    exact setWidth_of_le _ (Nat.mul_le_mul_left 8 size) (by omega)
  · have other : ∀ slot ∈ frame.clobberSlots, slot.1.reg.named ≠ q.reg.named :=
      fun slot member same => named ⟨slot, member, same⟩
    have unsaved : b.regs q.reg.named = p.regs q.reg.named := by
      refine body.unsaved q saved fun p' member => ?_
      rw [laid.calleeSaved, ← laid.regs] at member
      obtain ⟨slot, isSlot, rfl⟩ := List.mem_map.mp member
      exact other slot isSlot
    rw [restores_other other, unsaved, like.regs _ notScratch, prologueImage, saves_regs,
      setupImage_regs notSp notFp]

theorem Laid.body_self (frame : FrameLayout) (p : FrameState) : Body frame p p :=
  ⟨rfl, fun _ _ _ _ => rfl, fun _ _ _ => rfl, fun _ => ⟨rfl, rfl⟩, fun _ _ _ => rfl⟩

theorem isCalleeSaved_vector (hwEnc : BitVec 6) :
    (PReg.mk hwEnc .vector).isCalleeSaved = (PReg.mk hwEnc .float).isCalleeSaved := rfl

theorem named_vector (hwEnc : BitVec 6) :
    (PReg.mk hwEnc .vector).reg.named = (PReg.mk hwEnc .float).reg.named := by
  simp only [PReg.reg, Reg.named, PReg.index, RegClass.code, Reg.mk.injEq, and_true]
  omega

/-- A float register that is saved alone comes back without its upper half. -/
theorem upper_half_lost (laid : Laid l output frame) {hwEnc : BitVec 6}
    (isFloat : ⟨hwEnc, .float⟩ ∈ output.calleeSaved) (alone : ⟨hwEnc, .vector⟩ ∉ output.calleeSaved)
    (like : Like p (prologueImage frame s)) (body : Body frame p b) :
    (epilogueImage frame b).regs (PReg.mk hwEnc .float).reg.named =
      ((s.regs (PReg.mk hwEnc .float).reg.named).setWidth 64).setWidth 128 := by
  obtain ⟨notScratch, notSp, notFp, notLr⟩ := calleeSaved_named (isCalleeSaved_of_mem isFloat)
  rw [epilogueImage_regs notSp notFp notLr]
  rw [← laid.regs] at isFloat alone
  obtain ⟨slot, isSlot, isReg⟩ := List.mem_map.mp isFloat
  obtain ⟨before, last, after, split, isNamed, -, loaded⟩ :=
    restored_last laid like body ⟨slot, isSlot, congrArg (fun p : PReg => p.reg.named) isReg⟩
  have member : last ∈ frame.clobberSlots := by simp [split]
  have isVectorName := isNamed.trans (named_vector hwEnc).symm
  have isLastReg : last.1 = ⟨hwEnc, .float⟩ := by
    rcases eq_of_named rfl isVectorName with same | same
    · exact absurd (same ▸ List.mem_map_of_mem member) alone
    · exact same
  rw [loaded]
  have size : 8 * (slotArea last).size = 64 := by
    change 8 * clobberSlotSize last.1 = 64
    rw [isLastReg]
    rfl
  rw [size]

/-- Prologue and epilogue restore everything exactly when no float register is saved without
the vector register of its number. -/
theorem restoresAll_iff (computed : l.frame output = some frame) :
    RestoresAll checks frame ↔ WholeVectors output.calleeSaved := by
  have isLaid := laid computed
  obtain ⟨prologue, isPrologue, code, isCode, run⟩ := @runs_prologue checks _ _ _ isLaid
  obtain ⟨epilogue, isEpilogue, code', isCode', run'⟩ := @runs_epilogue checks _ _ _ isLaid
  have first : frame.genPrologue.bind (emitLegalized checks frame) = some code := by
    rw [isPrologue, Option.bind_some, isCode]
  have second : frame.genEpilogue.bind (emitLegalized checks frame) = some code' := by
    rw [isEpilogue, Option.bind_some, isCode']
  constructor
  · rintro ⟨prologue', epilogue', isFirst, isSecond, restored⟩ ⟨hwEnc, regClass⟩ member isFloat
    cases isFloat
    by_contra alone
    cases first.symm.trans isFirst
    cases second.symm.trans isSecond
    -- a caller that keeps a vector in the register
    let s : FrameState := ⟨fun _ => BitVec.allOnes 128, fun _ => 0⟩
    obtain ⟨p, enters, -, after⟩ := restored s
    obtain ⟨t, leaves, back⟩ := after p (Laid.body_self frame p)
    obtain ⟨p', enters', like⟩ := run s
    obtain ⟨t', leaves', like'⟩ := run' p
    cases enters.symm.trans enters'
    cases leaves.symm.trans leaves'
    have isSaved := (isCalleeSaved_vector hwEnc).trans (isCalleeSaved_of_mem member)
    obtain ⟨notScratch, -⟩ := calleeSaved_named (isCalleeSaved_of_mem member)
    have lost := upper_half_lost isLaid member alone like (Laid.body_self frame p)
    have whole : (t.regs (PReg.mk hwEnc .vector).reg.named).setWidth 128 =
        (BitVec.allOnes 128).setWidth 128 := back.saved ⟨hwEnc, .vector⟩ isSaved
    rw [named_vector, like'.regs _ notScratch, lost] at whole
    change BitVec.setWidth 128 (BitVec.setWidth 128 (BitVec.setWidth 64 (BitVec.allOnes 128))) =
      BitVec.setWidth 128 (BitVec.allOnes 128) at whole
    exact absurd whole (by decide)
  · intro whole
    refine ⟨code, code', first, second, fun s => ?_⟩
    obtain ⟨p, enters, like⟩ := run s
    refine ⟨p, enters, ?_, fun b body => ?_⟩
    · rw [like.word stackReg_kept, prologueImage_word, setupImage_word isLaid]
    · obtain ⟨t, leaves, like'⟩ := run' b
      obtain ⟨sp, isFp, isLr⟩ := restored_links isLaid like body
      refine ⟨t, leaves, ?_, ?_, ?_, fun q saved => ?_⟩
      · rw [like'.word stackReg_kept, sp]
      · rw [like'.word (by decide), isFp]
      · rw [like'.word (by decide), isLr]
      · rw [like'.regs _ (calleeSaved_named saved).1]
        exact restored_regs isLaid whole like body saved

/-- Two integer registers, and one register as a float and as a vector. -/
def savedWhole : AllocatorOutput :=
  ⟨2, [], [⟨.reg, 20, by decide⟩, ⟨.reg, 19, by decide⟩, ⟨.reg, 136, by decide⟩,
    ⟨.reg, 72, by decide⟩]⟩

/-- The same register as a float only. -/
def savedHalf : AllocatorOutput := ⟨0, [], [⟨.reg, 72, by decide⟩]⟩

theorem restoresAll_iff_twoObjects :
    (∃ l frame, Lowered.requests true (fun _ => .int32) 0 twoObjects = some l ∧
      l.frame savedWhole = some frame ∧ RestoresAll true frame) ∧
    ∃ l frame, Lowered.requests true (fun _ => .int32) 0 twoObjects = some l ∧
      l.frame savedHalf = some frame ∧ ¬ RestoresAll true frame := by
  obtain ⟨l, run, whole, half⟩ : ∃ l, Lowered.requests true (fun _ => .int32) 0 twoObjects =
    some l ∧
      (l.frame savedWhole).isSome ∧ (l.frame savedHalf).isSome := ⟨_, rfl, rfl, rfl⟩
  obtain ⟨frame, computed⟩ := Option.isSome_iff_exists.mp whole
  obtain ⟨frame', computed'⟩ := Option.isSome_iff_exists.mp half
  exact ⟨⟨l, frame, run, computed, (restoresAll_iff computed).mpr (by decide)⟩,
    l, frame', run, computed', fun restored =>
      absurd ((restoresAll_iff computed').mp restored) (by decide)⟩

end Code

end AnonCompiler.Mir
