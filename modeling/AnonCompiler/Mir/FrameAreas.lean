import AnonCompiler.Mir.FrameLayout

/-!
# The areas of a frame

The layout of a frame that could be computed packs its areas, provided that no size was cut
to 32 bits and the stack objects did not wrap around while they were summed.  Conversely an
object that was cut or that wrapped around does not lie in the frame.
-/

set_option autoImplicit false

namespace AnonCompiler.Mir

open AnonCompiler.Ir AnonCompiler.Lib

/-! ## What was asked for -/

/-- The types of the stack objects, one for each allocation that is new. -/
def slotTypes (allocTy : Inst → Ty) (known : Inst → Bool) : List FrameRequest → List Ty
  | [] => []
  | .stackslot ty :: calls => ty :: slotTypes allocTy known calls
  | .alloc alloc :: calls =>
    if known alloc then slotTypes allocTy known calls
    else allocTy alloc :: slotTypes allocTy (Function.update known alloc true) calls
  | .outgoingArgs _ :: calls | .hasCalls :: calls => slotTypes allocTy known calls

def outgoingSizes (calls : List FrameRequest) : List Nat :=
  calls.filterMap fun
    | .outgoingArgs size => some size
    | _ => none

/-- The bytes that the stack objects take, each rounded up to the alignment. -/
def slotBytes (tys : List Ty) : Nat := (tys.map fun ty => alignUp ty.size stackAlign).sum

/-- No size has to be cut, and the stack objects do not wrap around. -/
structure FrameFits (allocTy : Inst → Ty) (calls : List FrameRequest) : Prop where
  object : ∀ ty ∈ slotTypes allocTy (fun _ => false) calls, ty.size < 2 ^ 32
  objects : slotBytes (slotTypes allocTy (fun _ => false) calls) < 2 ^ 32
  outgoing : ∀ size ∈ outgoingSizes calls, size < 2 ^ 32

/-! ## One object -/

section Object

variable {checks : Bool} {bits n m : Nat} {ty : Ty} {abi abi' : CalleeAbi} {offset : Nat}

theorem wrapping_mod (result : wrapping checks bits n = some m) : m = n % 2 ^ bits := by
  unfold wrapping at result
  split at result
  · next fits =>
      cases result
      exact (Nat.mod_eq_of_lt fits).symm
  · split at result <;> cases result
    rfl

theorem wrapping_eq (fits : n < 2 ^ bits) (result : wrapping checks bits n = some m) : m = n :=
  (wrapping_mod result).trans (Nat.mod_eq_of_lt fits)

/-- A cast to 32 bits forgets whether the size wrapped around before. -/
theorem sizeOfTy_mod (sized : sizeOfTy checks ty = some n) : n ≡ ty.size [MOD 2 ^ 32] := by
  have cut {x y : Nat} (product : wrapping checks 64 x = some y) : y ≡ x [MOD 2 ^ 32] := by
    rw [wrapping_mod product]
    exact Nat.mod_mod_of_dvd x (by decide)
  induction ty generalizing n with
  | array elem count ih | vector elem count ih =>
    obtain ⟨size, isSize, product⟩ := Option.bind_eq_some_iff.mp sized
    exact (cut product).trans ((ih isSize).mul_right count)
  | _ =>
    cases sized
    rfl

theorem alignUp_of_mod {align : Nat} (positive : 0 < align) (n : Nat) :
    alignUp n align = if n % align = 0 then n else n + (align - n % align) := by
  have divided := Nat.div_add_mod n align
  have below := Nat.mod_lt n positive
  unfold alignUp
  split
  · next whole =>
      have quotient : (n + align - 1) / align = n / align := by
        rw [Nat.div_eq_iff positive]
        rw [Nat.mul_comm] at divided
        omega
      rw [quotient]
      exact Nat.div_mul_cancel (Nat.dvd_of_mod_eq_zero whole)
  · next part =>
      have quotient : (n + align - 1) / align = n / align + 1 := by
        rw [Nat.div_eq_iff positive, Nat.add_mul]
        rw [Nat.mul_comm] at divided
        omega
      rw [quotient, Nat.add_mul, Nat.mul_comm]
      omega

theorem nextMultipleOf_eq (fits : alignUp n 16 < 2 ^ 32)
    (result : nextMultipleOf checks n 16 = some m) : m = alignUp n 16 := by
  rw [alignUp_of_mod (by decide)] at fits ⊢
  unfold nextMultipleOf at result
  split at result
  · next whole =>
      cases result
      rw [if_pos whole]
  · next part =>
      rw [if_neg part] at fits ⊢
      exact wrapping_eq fits result

/-- Nothing but the sum of the sizes changes. -/
theorem allocateStackslot_frame (result : abi.allocateStackslot checks ty = some (offset, abi')) :
    ∃ total, offset = abi.totalStackslotsSize ∧ abi' =
      { abi with totalStackslotsSize := total } := by
  simp only [CalleeAbi.allocateStackslot, Option.bind_eq_bind, Option.bind_eq_some_iff,
    Option.some.injEq, Prod.mk.injEq] at result
  obtain ⟨size, -, actual, -, total, -, rfl, rfl⟩ := result
  exact ⟨total, rfl, rfl⟩

/-- An object that ends in the frame was laid out exactly. -/
theorem allocateStackslot_eq (aligned : abi.totalStackslotsSize % 16 = 0)
    (fits : abi.totalStackslotsSize + ty.size ≤ 2 ^ 32 - 16)
    (result : abi.allocateStackslot checks ty = some (offset, abi')) :
    offset = abi.totalStackslotsSize ∧ abi' =
      { abi with totalStackslotsSize := abi.totalStackslotsSize + alignUp ty.size 16 } := by
  simp only [CalleeAbi.allocateStackslot, Option.bind_eq_bind, Option.bind_eq_some_iff,
    Option.some.injEq, Prod.mk.injEq] at result
  obtain ⟨size, sized, actual, rounded, total, summed, rfl, rfl⟩ := result
  have isSize : size % 2 ^ 32 = ty.size :=
    Eq.trans (sizeOfTy_mod sized) (Nat.mod_eq_of_lt (by omega))
  have upper : alignUp ty.size 16 = (ty.size + 15) / 16 * 16 := rfl
  rw [isSize] at rounded
  obtain rfl := nextMultipleOf_eq (by omega) rounded
  obtain rfl := wrapping_eq (by omega) summed
  exact ⟨rfl, rfl⟩

end Object

/-! ## All objects -/

section Objects

variable {checks : Bool} {allocTy : Inst → Ty} {l l' : Lowered} {calls : List FrameRequest}

/-- The objects lie below the sum of their sizes, which is a multiple of the alignment. -/
structure Stacked (l : Lowered) : Prop where
  aligned : l.abi.totalStackslotsSize % 16 = 0
  packed : Area.Packed 0 l.abi.totalStackslotsSize (l.slots.map fun slot => ⟨slot.1, slot.2.size⟩)

def Lowered.known (l : Lowered) : Inst → Bool := fun alloc => (l.abi.allocToSs alloc).isSome

/-- The object ends before the largest frame does. -/
def SlotReachable (slot : Nat × Ty) : Prop := slot.1 + slot.2.size ≤ 2 ^ 32 - 16

/-- A call that allocates an object of the type. -/
structure Adds (l l' : Lowered) (ty : Ty) : Prop where
  slots : l'.slots = l.slots ++ [(l.abi.totalStackslotsSize, ty)]
  total : l.abi.totalStackslotsSize % 16 = 0 →
    l.abi.totalStackslotsSize + ty.size ≤ 2 ^ 32 - 16 →
    l'.abi.totalStackslotsSize = l.abi.totalStackslotsSize + alignUp ty.size 16

/-- A call that allocates nothing. -/
structure Same (l l' : Lowered) : Prop where
  slots : l'.slots = l.slots
  total : l'.abi.totalStackslotsSize = l.abi.totalStackslotsSize

/-- The outgoing area is the largest one asked for, cut to 32 bits. -/
def grown (most : Nat) (calls : List FrameRequest) : Nat :=
  (outgoingSizes calls).foldl (fun most size => max most (size % 2 ^ 32)) most

/-- What a call does to the outgoing area and to the objects. -/
theorem request_cases {call : FrameRequest} (step : l.request checks allocTy call = some l') :
    l'.abi.outgoingArgSize = grown l.abi.outgoingArgSize [call] ∧
      ((∃ ty, (∀ calls, slotTypes allocTy l.known (call :: calls) =
          ty :: slotTypes allocTy l'.known calls) ∧ Adds l l' ty) ∨
        (∀ calls, slotTypes allocTy l.known (call :: calls) = slotTypes allocTy l'.known calls) ∧
          Same l l') := by
  cases call with
  | stackslot ty =>
    simp only [Lowered.request, Option.bind_eq_bind, Option.bind_eq_some_iff,
      Option.some.injEq] at step
    obtain ⟨⟨offset, abi⟩, allocated, rfl⟩ := step
    obtain ⟨total, rfl, rfl⟩ := allocateStackslot_frame allocated
    refine ⟨rfl, .inl ⟨ty, fun calls => rfl, rfl, fun aligned fits => ?_⟩⟩
    exact congrArg CalleeAbi.totalStackslotsSize (allocateStackslot_eq aligned fits allocated).2
  | alloc alloc =>
    simp only [Lowered.request, CalleeAbi.allocStackslotOrGet, Option.bind_eq_bind,
      Option.bind_eq_some_iff, Option.some.injEq] at step
    obtain ⟨⟨offset, abi⟩, allocated, rfl⟩ := step
    cases found : l.abi.allocToSs alloc with
    | some old =>
      rw [found] at allocated
      cases allocated
      refine ⟨rfl, .inr ⟨fun calls => ?_, by simp, rfl⟩⟩
      rw [slotTypes, if_pos (by simp [Lowered.known, found])]
      rfl
    | none =>
      simp only [found, Option.bind_eq_some_iff, Option.some.injEq, Prod.mk.injEq] at allocated
      obtain ⟨⟨offset', abi'⟩, allocated, rfl, rfl⟩ := allocated
      obtain ⟨total, rfl, rfl⟩ := allocateStackslot_frame allocated
      refine ⟨rfl, .inl ⟨allocTy alloc, fun calls => ?_, by simp, fun aligned fits => ?_⟩⟩
      · have now : Function.update l.known alloc true = fun x =>
            (Function.update l.abi.allocToSs alloc (some l.abi.totalStackslotsSize) x).isSome :=
          funext fun x => by
            by_cases here : x = alloc
            · subst here
              simp
            · simp [Function.update_of_ne here, Lowered.known]
        rw [slotTypes, if_neg (by simp [Lowered.known, found]), now]
        rfl
      · exact congrArg CalleeAbi.totalStackslotsSize
          (allocateStackslot_eq aligned fits allocated).2
  | outgoingArgs | hasCalls =>
    cases step
    exact ⟨rfl, .inr ⟨fun _ => rfl, rfl, rfl⟩⟩

theorem Adds.stacked {ty : Ty} (adds : Adds l l' ty) (stacked : Stacked l)
    (fits : l.abi.totalStackslotsSize + ty.size ≤ 2 ^ 32 - 16) : Stacked l' := by
  have total := adds.total stacked.aligned fits
  have upper : alignUp ty.size 16 = (ty.size + 15) / 16 * 16 := rfl
  have aligned := stacked.aligned
  refine ⟨by omega, ?_⟩
  rw [adds.slots, List.map_append, total]
  refine stacked.packed.append (.single ⟨Nat.le_refl _, ?_⟩) (Nat.zero_le _) (Nat.le_add_right _ _)
  change l.abi.totalStackslotsSize + ty.size ≤ _
  omega

theorem Same.stacked (same : Same l l') (stacked : Stacked l) : Stacked l' := by
  refine ⟨same.total ▸ stacked.aligned, ?_⟩
  rw [same.slots, same.total]
  exact stacked.packed

section

variable (run : calls.foldlM (Lowered.request checks allocTy) l = some l')
include run

/-- Objects are never given up. -/
theorem slots_subset : l.slots ⊆ l'.slots := by
  induction calls generalizing l with
  | nil =>
    cases run
    exact List.Subset.refl _
  | cons call calls ih =>
    obtain ⟨next, step, run⟩ := Option.bind_eq_some_iff.mp run
    refine List.Subset.trans ?_ (ih run)
    rcases (request_cases step).2 with ⟨ty, -, adds⟩ | ⟨-, same⟩
    · rw [adds.slots]
      exact List.subset_append_left _ _
    · rw [same.slots]
      exact List.Subset.refl _

/-- Sizes that fit are summed exactly, and the objects are packed. -/
theorem stacked_of_fits (stacked : Stacked l)
    (object : ∀ ty ∈ slotTypes allocTy l.known calls, ty.size < 2 ^ 32)
    (objects : l.abi.totalStackslotsSize + slotBytes (slotTypes allocTy l.known calls) < 2 ^ 32) :
    Stacked l' := by
  induction calls generalizing l with
  | nil =>
    cases run
    exact stacked
  | cons call calls ih =>
    obtain ⟨next, step, run⟩ := Option.bind_eq_some_iff.mp run
    rcases (request_cases step).2 with ⟨ty, types, adds⟩ | ⟨types, same⟩
    · rw [types] at object objects
      rw [slotBytes, List.map_cons, List.sum_cons, stackAlign] at objects
      have upper : alignUp ty.size 16 = (ty.size + 15) / 16 * 16 := rfl
      have aligned := stacked.aligned
      have fits : l.abi.totalStackslotsSize + ty.size ≤ 2 ^ 32 - 16 := by omega
      have total := adds.total aligned fits
      refine ih run (adds.stacked stacked fits) (fun ty member =>
        object ty (List.mem_cons_of_mem _ member)) ?_
      rw [slotBytes, stackAlign]
      omega
    · rw [types] at object objects
      refine ih run (same.stacked stacked) object ?_
      rw [same.total]
      exact objects

/-- Objects that all lie in a frame fit. -/
theorem fits_of_reachable (aligned : l.abi.totalStackslotsSize % 16 = 0)
    (small : l.abi.totalStackslotsSize < 2 ^ 32)
    (reachable : ∀ slot ∈ l'.slots, SlotReachable slot) :
    (∀ ty ∈ slotTypes allocTy l.known calls, ty.size < 2 ^ 32) ∧
      l.abi.totalStackslotsSize + slotBytes (slotTypes allocTy l.known calls) < 2 ^ 32 := by
  induction calls generalizing l with
  | nil =>
    rw [slotTypes]
    exact ⟨fun _ member => absurd member List.not_mem_nil, small⟩
  | cons call calls ih =>
    obtain ⟨next, step, run⟩ := Option.bind_eq_some_iff.mp run
    rcases (request_cases step).2 with ⟨ty, types, adds⟩ | ⟨types, same⟩
    · have isSlot : (l.abi.totalStackslotsSize, ty) ∈ next.slots := by simp [adds.slots]
      have fits : l.abi.totalStackslotsSize + ty.size ≤ 2 ^ 32 - 16 :=
        reachable _ (slots_subset run isSlot)
      have upper : alignUp ty.size 16 = (ty.size + 15) / 16 * 16 := rfl
      have total := adds.total aligned fits
      obtain ⟨object, objects⟩ := ih run (by omega) (by omega)
      rw [types]
      refine ⟨fun ty' member => ?_, ?_⟩
      · rcases List.mem_cons.mp member with rfl | later
        · omega
        · exact object ty' later
      · rw [slotBytes, stackAlign] at objects ⊢
        rw [List.map_cons, List.sum_cons]
        omega
    · rw [types, ← same.total]
      rw [← same.total] at aligned small
      exact ih run aligned small

end

theorem requests_outgoing (run : calls.foldlM (Lowered.request checks allocTy) l = some l') :
    l'.abi.outgoingArgSize = grown l.abi.outgoingArgSize calls := by
  induction calls generalizing l with
  | nil =>
    cases run
    rfl
  | cons call calls ih =>
    obtain ⟨next, step, run⟩ := Option.bind_eq_some_iff.mp run
    have split : outgoingSizes (call :: calls) = outgoingSizes [call] ++ outgoingSizes calls :=
      List.filterMap_append (l := [call]) ..
    rw [ih run, (request_cases step).1, grown, grown, grown, split, List.foldl_append]

end Objects

/-! ## The layout -/

section Layout

variable {checks : Bool} {l : Lowered} {output : AllocatorOutput} {frame : FrameLayout}

variable {offset size most : Nat} {p : PReg}

@[simp] theorem checked_eq_some {n m : Nat} : checked n = some m ↔ n < 2 ^ 32 ∧ n = m := by
  unfold checked
  split
  · next fits => exact ⟨fun same => ⟨fits, Option.some.inj same⟩, fun both => congrArg some both.2⟩
  · next large => exact ⟨fun absent => (by cases absent), fun both => absurd both.1 large⟩

/-- The sizes of a frame that could be laid out. -/
structure Laid (l : Lowered) (output : AllocatorOutput) (frame : FrameLayout) : Prop where
  calleeSaved : frame.calleeSaved = output.calleeSaved
  clobber : frame.calleeSaved.foldlM clobberStep 0 = some frame.clobberSize
  spill : frame.spillSize = output.numSpillslots * 8
  slots : frame.stackslotsSize = l.abi.totalStackslotsSize
  outgoing : frame.outgoingArgsSize = l.abi.outgoingArgSize
  setup : frame.setupAreaSize = 16 ∨ frame.setupAreaSize = 0 ∧ frame.clobberSize = 0
  fits : frame.setupAreaSize + frame.clobberSize + frame.spillSize + frame.stackslotsSize +
    frame.outgoingArgsSize + 15 < 2 ^ 32
  total : frame.totalSize = (frame.setupAreaSize + frame.clobberSize + frame.spillSize +
    frame.stackslotsSize + frame.outgoingArgsSize + 15) / 16 * 16

theorem laid (computed : l.frame output = some frame) : Laid l output frame := by
  simp only [Lowered.frame, AllocatorOutput.spillSize, CalleeAbi.computeFrameLayout,
    Option.bind_eq_bind, Option.bind_eq_some_iff, Option.some.injEq, checked_eq_some] at computed
  obtain ⟨spill, ⟨units, ⟨-, rfl⟩, -, rfl⟩, clobber, isClobber, -, ⟨-, rfl⟩, -, ⟨-, rfl⟩, -,
    ⟨-, rfl⟩, -, ⟨-, rfl⟩, -, ⟨fits, rfl⟩, rfl⟩ := computed
  refine ⟨rfl, isClobber, rfl, rfl, rfl, ?_, fits, rfl⟩
  dsimp only
  split
  · exact .inl rfl
  · next idle =>
      refine .inr ⟨rfl, ?_⟩
      omega

/-! ### The areas -/

/-- The slot of a saved register. -/
def slotArea (slot : PReg × Int) : Area := ⟨slot.2.toNat, clobberSlotSize slot.1⟩

/-- The slot that is taken next below a register that is saved. -/
theorem clobberStep_eq {offset' : Nat} (step : clobberStep offset p = some offset') : offset' =
      (if 8 < clobberSlotSize p then alignUp offset (clobberSlotSize p) else offset) +
        clobberSlotSize p := by
  simp only [clobberStep, Option.bind_eq_bind, Option.bind_eq_some_iff, checked_eq_some] at step
  obtain ⟨size, ⟨-, rfl⟩, aligned, isAligned, -, rfl⟩ := step
  have isSize : spillslotSize p.regClass * spillUnitBytes = clobberSlotSize p := by
    unfold clobberSlotSize spillslotSize
    cases p.regClass <;> rfl
  rw [isSize] at isAligned ⊢
  rw [wordBytes] at isAligned
  split at isAligned
  · next wide =>
      obtain ⟨_, -, rfl⟩ := Option.map_eq_some_iff.mp isAligned
      rw [if_pos wide]
  · next narrow =>
      cases isAligned
      rw [if_neg narrow]

theorem le_alignUp (n : Nat) (wide : 8 < clobberSlotSize p) :
    n ≤ alignUp n (clobberSlotSize p) := by
  rw [alignUp_of_mod (by omega)]
  split <;> omega

/-- The slots of the saved registers go down from the base. -/
theorem packed_clobberSlots {base : Nat} {regs : List PReg}
    (summed : regs.foldlM clobberStep offset = some size) (room : size ≤ base) :
    offset ≤ size ∧ (∀ slot ∈ clobberSlots base offset regs, 0 ≤ slot.2) ∧
      Area.Packed (base - size) (base - offset) ((clobberSlots base offset regs).map slotArea) := by
  induction regs generalizing offset with
  | nil =>
    cases summed
    exact ⟨Nat.le_refl _, fun _ member => absurd member List.not_mem_nil, .nil⟩
  | cons p regs ih =>
    obtain ⟨next, step, rest⟩ := Option.bind_eq_some_iff.mp summed
    have isNext := clobberStep_eq step
    obtain ⟨upper, nonneg, packed⟩ := ih rest
    have lower : offset + clobberSlotSize p ≤ next := by
      rw [isNext]
      split
      · next wide => exact Nat.add_le_add_right (le_alignUp offset wide) _
      · exact Nat.le_refl _
    simp only [clobberSlots, ← isNext, List.map_cons]
    refine ⟨by omega, fun slot member => ?_, ?_⟩
    · rcases List.mem_cons.mp member with rfl | later
      · dsimp only
        omega
      · exact nonneg slot later
    · refine .cons_above ⟨?_, ?_⟩ packed (by omega) (by omega)
      · change base - next ≤ ((base : Int) - (next : Nat)).toNat
        omega
      · change ((base : Int) - (next : Nat)).toNat + clobberSlotSize p ≤ _
        omega

/-- The areas of spill slots, from the spill base on. -/
theorem packed_spills (base count : Nat) :
    Area.Packed base (base + count * 8) ((List.range count).map fun slot =>
      ⟨slot * 8 + base, 8⟩) := by
  induction count with
  | zero => exact .nil
  | succ count ih =>
    rw [List.range_succ, List.map_append]
    refine ih.append (.single ⟨?_, ?_⟩) (by omega) (by omega)
    · change base + count * 8 ≤ count * 8 + base
      omega
    · change count * 8 + base + 8 ≤ _
      omega

/-- The areas of the frame: outgoing arguments, objects, spill slots, saved registers, and the
frame pointer with the link register. -/
def frameAreas (calls : List FrameRequest) (l : Lowered) (output : AllocatorOutput)
    (frame : FrameLayout) : Option (List Area) := do
  let spills ← (List.range output.numSpillslots).mapM frame.spillSlotOffset
  some (⟨0, (outgoingSizes calls).foldl max 0⟩ ::
    l.slots.map (fun slot => ⟨frame.outgoingArgsSize + slot.1, slot.2.size⟩) ++
    spills.map (fun offset => ⟨offset, spillUnitBytes⟩) ++
    frame.clobberSlots.map slotArea ++
    if frame.setupAreaSize ≠ 0 then [⟨frame.totalSize - 16, 16⟩] else [])

theorem Laid.spillSlotOffset (laid : Laid l output frame) {slot : Nat}
    (isSlot : slot < output.numSpillslots) : frame.spillSlotOffset slot =
      some (slot * 8 + (frame.outgoingArgsSize + frame.stackslotsSize)) := by
  have fits := laid.fits
  have spill := laid.spill
  have base : frame.spillBaseBytes = some (frame.outgoingArgsSize + frame.stackslotsSize) :=
    checked_eq_some.mpr ⟨by omega, rfl⟩
  have limit : frame.spillRegionEnd =
      some (frame.outgoingArgsSize + frame.stackslotsSize + frame.spillSize) := by
    rw [FrameLayout.spillRegionEnd, base]
    exact checked_eq_some.mpr ⟨by omega, rfl⟩
  simp only [FrameLayout.spillSlotOffset, base, limit, Option.bind_eq_bind, Option.bind_some,
    spillUnitBytes]
  exact if_pos (by omega)

theorem Laid.spills (laid : Laid l output frame) :
    (List.range output.numSpillslots).mapM frame.spillSlotOffset =
      some ((List.range output.numSpillslots).map fun slot =>
        slot * 8 + (frame.outgoingArgsSize + frame.stackslotsSize)) :=
  mapM_eq_some_map fun _ member => laid.spillSlotOffset (List.mem_range.mp member)

/-- The saved registers lie below the setup area, above the spill slots. -/
theorem Laid.clobberSlots (laid : Laid l output frame) :
    (∀ slot ∈ frame.clobberSlots, 0 ≤ slot.2) ∧
      Area.Packed (frame.totalSize - frame.setupAreaSize - frame.clobberSize)
        (frame.totalSize - frame.setupAreaSize) (frame.clobberSlots.map slotArea) := by
  have total := laid.total
  have room : frame.clobberSize ≤ frame.totalSize - frame.setupAreaSize := by omega
  exact (packed_clobberSlots laid.clobber room).2

/-! ### When the areas are packed -/

variable {allocTy : Inst → Ty} {sizedStackArgSize : Nat} {calls : List FrameRequest}

theorem le_foldl_max {sizes : List Nat} (member : size ∈ sizes ∨ size ≤ most) :
    size ≤ sizes.foldl max most := by
  induction sizes generalizing most with
  | nil => simpa using member
  | cons first rest ih =>
    refine ih ?_
    rcases member with member | small
    · rcases List.mem_cons.mp member with rfl | later
      · exact .inr (Nat.le_max_right _ _)
      · exact .inl later
    · exact .inr (small.trans (Nat.le_max_left _ _))

/-- Sizes below the limit are not cut. -/
theorem grown_eq (small : ∀ size ∈ outgoingSizes calls, size < 2 ^ 32) :
    grown most calls = (outgoingSizes calls).foldl max most := by
  unfold grown
  generalize outgoingSizes calls = sizes at small
  induction sizes generalizing most with
  | nil => rfl
  | cons size sizes ih =>
    rw [List.foldl_cons, List.foldl_cons, Nat.mod_eq_of_lt (small size List.mem_cons_self)]
    exact ih fun later member => small later (List.mem_cons_of_mem _ member)

theorem stacked_new (sizedStackArgSize : Nat) : Stacked ⟨.new sizedStackArgSize, []⟩ :=
  ⟨rfl, .nil⟩

section

variable (run : Lowered.requests checks allocTy sizedStackArgSize calls = some l)
  (laid : Laid l output frame)
include run laid

/-- Sizes that fit are laid out side by side. -/
theorem packed_of_fits (fits : FrameFits allocTy calls) :
    ∃ areas, frameAreas calls l output frame = some areas ∧
      Area.Packed 0 frame.totalSize areas := by
  have objects := (Nat.zero_add _).trans_lt fits.objects
  have stacked : Stacked l := stacked_of_fits run (stacked_new _) fits.object objects
  have outgoing : frame.outgoingArgsSize = (outgoingSizes calls).foldl max 0 :=
    laid.outgoing.trans ((requests_outgoing run).trans (grown_eq fits.outgoing))
  have setup := laid.setup
  have total := laid.total
  have slots := stacked.packed.shift frame.outgoingArgsSize
  rw [← laid.slots, List.map_map] at slots
  have spills := packed_spills (frame.outgoingArgsSize + frame.stackslotsSize) output.numSpillslots
  rw [← laid.spill] at spills
  have saved := laid.clobberSlots.2
  have top : Area.Packed (frame.totalSize - frame.setupAreaSize) frame.totalSize
      (if frame.setupAreaSize ≠ 0 then [⟨frame.totalSize - 16, 16⟩] else []) := by
    rcases setup with isSetup | ⟨isSetup, -⟩
    · rw [isSetup, if_pos (by decide)]
      refine .single ⟨Nat.le_refl _, ?_⟩
      change frame.totalSize - 16 + 16 ≤ _
      omega
    · rw [isSetup, if_neg (by decide)]
      exact .nil
  simp only [frameAreas, laid.spills, Option.bind_eq_bind, Option.bind_some, Option.some.injEq,
    exists_eq_left', ← outgoing, List.map_map]
  have first : Area.Packed 0 frame.outgoingArgsSize [⟨0, frame.outgoingArgsSize⟩] :=
    .single ⟨Nat.le_refl _, Nat.le_of_eq (Nat.zero_add _)⟩
  have lower := (first.append slots (Nat.zero_le _) (Nat.le_add_right _ _)).append spills
    (Nat.zero_le _) (Nat.le_add_right _ _)
  have reaches : frame.outgoingArgsSize + frame.stackslotsSize + frame.spillSize ≤
      frame.totalSize - frame.setupAreaSize - frame.clobberSize := by omega
  have middle := (lower.mono (Nat.le_refl _) reaches).append saved (Nat.zero_le _)
    (Nat.sub_le _ _)
  exact middle.append top (Nat.zero_le _) (Nat.sub_le _ _)

/-- What lies in the frame has not been cut and has not wrapped around. -/
theorem fits_of_packed {areas : List Area} (isAreas : frameAreas calls l output frame = some areas)
    (inside : ∀ a ∈ areas, a.Inside 0 frame.totalSize) : FrameFits allocTy calls := by
  have total := laid.total
  have fits := laid.fits
  have most : frame.totalSize ≤ 2 ^ 32 - 16 := by omega
  simp only [frameAreas, laid.spills, Option.bind_eq_bind, Option.bind_some,
    Option.some.injEq] at isAreas
  subst isAreas
  have reachable : ∀ slot ∈ l.slots, SlotReachable slot := by
    intro slot member
    have here := (inside ⟨frame.outgoingArgsSize + slot.1, slot.2.size⟩ (by
      simp only [List.cons_append, List.mem_cons, List.mem_append, List.mem_map]
      exact .inr (.inl (.inl (.inl ⟨slot, member, rfl⟩))))).2
    change frame.outgoingArgsSize + slot.1 + slot.2.size ≤ _ at here
    unfold SlotReachable
    omega
  have outgoing : 0 + (outgoingSizes calls).foldl max 0 ≤ frame.totalSize :=
    (inside ⟨0, (outgoingSizes calls).foldl max 0⟩ (by simp)).2
  obtain ⟨object, objects⟩ := fits_of_reachable run rfl (Nat.two_pow_pos 32) reachable
  refine ⟨object, (Nat.zero_add _).symm.trans_lt objects, fun size member => ?_⟩
  have isMost : size ≤ (outgoingSizes calls).foldl max 0 := le_foldl_max (.inl member)
  omega

end

/-- A frame that could be laid out is sound exactly when no size was cut. -/
theorem frame_packed_iff (run : Lowered.requests checks allocTy sizedStackArgSize calls = some l)
    (computed : l.frame output = some frame) :
    (frame.totalSize % stackAlign = 0 ∧ ∃ areas, frameAreas calls l output frame = some areas ∧
      Area.Packed 0 frame.totalSize areas) ↔ FrameFits allocTy calls := by
  have isLaid := laid computed
  constructor
  · rintro ⟨-, areas, isAreas, packed⟩
    exact fits_of_packed run isLaid isAreas packed.inside
  · intro fits
    refine ⟨?_, packed_of_fits run isLaid fits⟩
    rw [isLaid.total]
    exact Nat.mul_mod_left _ _

/-- The calls of a function with two objects, one of them asked for twice. -/
def twoObjects : List FrameRequest :=
  [.stackslot (.array .int32 5), .alloc 7, .alloc 7, .outgoingArgs 24, .hasCalls]

/-- An array of `2 ^ 32` bytes. -/
def hugeObject : List FrameRequest := [.stackslot (.array .int32 (2 ^ 30))]

/-- The two objects are packed with two spill slots and a saved register; the huge object is not
in its frame. -/
theorem frame_packed_iff_twoObjects :
    (∃ l frame, Lowered.requests true (fun _ => .int32) 0 twoObjects = some l ∧
      l.frame ⟨2, [], [⟨.reg, 19, by decide⟩]⟩ = some frame ∧ frame.totalSize = 112 ∧
      ∃ areas, frameAreas twoObjects l ⟨2, [], [⟨.reg, 19, by decide⟩]⟩ frame = some areas ∧
        Area.Packed 0 112 areas) ∧
    ∃ l frame, Lowered.requests false (fun _ => .unit) 0 hugeObject = some l ∧
      l.frame ⟨0, [], []⟩ = some frame ∧
      ¬ ∃ areas, frameAreas hugeObject l ⟨0, [], []⟩ frame = some areas ∧
        Area.Packed 0 frame.totalSize areas := by
  constructor
  · refine ⟨_, _, rfl, rfl, rfl, ?_⟩
    have run : Lowered.requests true (fun _ => .int32) 0 twoObjects = some _ := rfl
    exact ((frame_packed_iff run rfl).mpr ⟨by decide, by decide, by decide⟩).2
  · refine ⟨_, _, rfl, rfl, fun packed => ?_⟩
    have run : Lowered.requests false (fun _ => .unit) 0 hugeObject = some _ := rfl
    have fits := (frame_packed_iff run rfl).mp ⟨rfl, packed⟩
    exact absurd (fits.object (.array .int32 (2 ^ 30)) List.mem_cons_self) (by decide)

end Layout

end AnonCompiler.Mir
