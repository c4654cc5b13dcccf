import AnonCompiler.Mir.ParallelMovesCorrect

/-!
# Moves between stack slots

`MoveAndScratchResolver::compute` of `taki_mir/src/reg_alloc/moves.rs`.  A move from stack
to stack goes through a register.  When no register is free, one is borrowed: its value is
saved in a slot and brought back before the next move that reads it, or at the end.

The closures of the resolver are given by their answers to each call; `Calls` counts the
calls.
-/

set_option autoImplicit false

namespace AnonCompiler.Mir

open AnonCompiler.Lib

/-! ## The resolver -/

structure MoveAndScratchResolver where
  findFreeReg : Nat → Option Allocation
  getStackslot : Nat → Allocation
  isStackAlloc : Allocation → Bool
  borrowedScratchReg : Allocation

structure Calls where
  regs : Nat
  slots : Nat
deriving DecidableEq, Repr

structure Scratch where
  reg : Allocation
  saveSlot : Option Allocation

structure DirtyFlags where
  scratchDirty : Bool
  saveDirty : Bool
deriving DecidableEq, Repr

variable {T : Type}

namespace MoveAndScratchResolver

def isStackToStackMove (r : MoveAndScratchResolver) (src dst : Allocation) : Bool :=
  r.isStackAlloc src && r.isStackAlloc dst

/-- The moves with a location for their cycles. -/
def fillCycles (r : MoveAndScratchResolver) (moves : MoveVecWithScratch T) :
    Option (List (Move T) × Calls) :=
  if moves.needsScratch then
    match r.findFreeReg 0 with
    | some scratch => some (moves.withScratch scratch, ⟨1, 0⟩)
    | none => some (moves.withScratch (r.getStackslot 0), ⟨1, 1⟩)
  else moves.withoutScratch.map fun moves => (moves, ⟨0, 0⟩)

/-- The register for the moves between stack slots. -/
def scratch (r : MoveAndScratchResolver) (calls : Calls) : Scratch × Calls :=
  match r.findFreeReg calls.regs with
  | some reg => (⟨reg, none⟩, ⟨calls.regs + 1, calls.slots⟩)
  | none =>
    (⟨r.borrowedScratchReg, some (r.getStackslot calls.slots)⟩, ⟨calls.regs + 1, calls.slots + 1⟩)

section Expand

variable [Inhabited T]

/-- The save of the register before it is used, if there is anything to save. -/
def save (scratch : Scratch) (flags : DirtyFlags) : List (Move T) × DirtyFlags :=
  match scratch.saveSlot with
  | some slot =>
    if flags.saveDirty then ([⟨scratch.reg, slot, default⟩], { flags with saveDirty := false })
    else ([], flags)
  | none => ([], flags)

/-- The value of the register comes back before a move that reads it; `none` is the failed
`expect`. -/
def restore (scratch : Scratch) (src : Allocation) (flags : DirtyFlags) :
    Option (List (Move T) × DirtyFlags) :=
  if src = scratch.reg ∧ flags.scratchDirty then
    scratch.saveSlot.map fun slot =>
      ([⟨slot, scratch.reg, default⟩], { flags with scratchDirty := false })
  else some ([], flags)

def overwrite (scratch : Scratch) (dst : Allocation) (flags : DirtyFlags) : DirtyFlags :=
  if dst = scratch.reg then ⟨false, true⟩ else flags

/-- The body of the loop. -/
def expandMove (r : MoveAndScratchResolver) (scratch : Scratch) (move : Move T)
    (flags : DirtyFlags) : Option (List (Move T) × DirtyFlags) :=
  if r.isStackToStackMove move.src move.dst then
    some ((save scratch flags).1 ++
        [⟨move.src, scratch.reg, move.data⟩, ⟨scratch.reg, move.dst, move.data⟩],
      { (save (T := T) scratch flags).2 with scratchDirty := true })
  else
    (restore scratch move.src flags).map fun restored =>
      (restored.1 ++ [move], overwrite scratch move.dst restored.2)

def expand (r : MoveAndScratchResolver) (scratch : Scratch) :
    List (Move T) → DirtyFlags → Option (List (Move T) × DirtyFlags)
  | [], flags => some ([], flags)
  | move :: rest, flags =>
    (r.expandMove scratch move flags).bind fun first =>
      (r.expand scratch rest first.2).map fun later => (first.1 ++ later.1, later.2)

/-- The last move of the result brings the value of a borrowed register back. -/
def finalRestore (scratch : Scratch) (flags : DirtyFlags) : List (Move T) :=
  match scratch.saveSlot with
  | some slot => if flags.scratchDirty then [⟨slot, scratch.reg, default⟩] else []
  | none => []

/-- `compute`, with the calls that it has made. -/
def compute (r : MoveAndScratchResolver) (moves : MoveVecWithScratch T) :
    Option (List (Move T) × Calls) :=
  (r.fillCycles moves).bind fun filled =>
    if filled.1.any fun move => r.isStackToStackMove move.src move.dst then
      (r.expand (r.scratch filled.2).1 filled.1 ⟨false, true⟩).map fun result =>
        (result.1 ++ finalRestore (r.scratch filled.2).1 result.2, (r.scratch filled.2).2)
    else some filled

end Expand

/-- The registers and slots that the calls have answered. -/
def Handed (r : MoveAndScratchResolver) (calls : Calls) (l : Allocation) : Prop :=
  (∃ k < calls.regs, r.findFreeReg k = some l) ∨ ∃ k < calls.slots, r.getStackslot k = l

end MoveAndScratchResolver

/-! ## The simulation -/

namespace Scratch

variable {V : Type} {scratch : Scratch} {flags : DirtyFlags} {actual expected : Allocation → V}
  {move : Move T} {moves : List (Move T)}

/-- A register for the moves between stack slots.  A borrowed one may occur in the moves. -/
structure Usable (r : MoveAndScratchResolver) (scratch : Scratch) (moves : List (Move T)) :
    Prop where
  notStack : r.isStackAlloc scratch.reg = false
  slotDiffers : ∀ slot, scratch.saveSlot = some slot → slot ≠ scratch.reg
  slotAvoided : ∀ slot, scratch.saveSlot = some slot → Avoids slot moves
  regAvoided : scratch.saveSlot = none → Avoids scratch.reg moves

theorem Usable.mono {r : MoveAndScratchResolver} {moves' : List (Move T)}
    (usable : Usable r scratch moves) (subset : ∀ move ∈ moves', move ∈ moves) :
    Usable r scratch moves' where
  notStack := usable.notStack
  slotDiffers := usable.slotDiffers
  slotAvoided slot isSlot move member := usable.slotAvoided slot isSlot move (subset move member)
  regAvoided free move member := usable.regAvoided free move (subset move member)

/-- The values of the expanded moves, against those of the moves themselves. -/
structure Tracks (scratch : Scratch) (flags : DirtyFlags) (actual expected : Allocation → V) :
    Prop where
  others : ∀ l, l ≠ scratch.reg → scratch.saveSlot ≠ some l → actual l = expected l
  clean : flags.scratchDirty = false → actual scratch.reg = expected scratch.reg
  saved : flags.saveDirty = false → ∀ slot, scratch.saveSlot = some slot →
    actual slot = expected scratch.reg
  safe : flags.scratchDirty = true → ∀ slot, scratch.saveSlot = some slot →
    flags.saveDirty = false

theorem Tracks.refl (env : Allocation → V) : Tracks scratch ⟨false, true⟩ env env where
  others _ _ _ := rfl
  clean _ := rfl
  saved isClean := by cases isClean
  safe isDirty := by cases isDirty

theorem Tracks.save [Inhabited T] (tracks : Tracks scratch flags actual expected)
    (differs : ∀ slot, scratch.saveSlot = some slot → slot ≠ scratch.reg) :
    Tracks scratch (MoveAndScratchResolver.save (T := T) scratch flags).2
        (runMoves ((MoveAndScratchResolver.save (T := T) scratch flags).1.map Move.ends) actual)
        expected ∧
      ∀ slot, scratch.saveSlot = some slot →
        (MoveAndScratchResolver.save (T := T) scratch flags).2.saveDirty = false := by
  unfold MoveAndScratchResolver.save
  cases isSlot : scratch.saveSlot with
  | none => exact ⟨tracks, fun slot absurd => by cases absurd⟩
  | some slot =>
    have apart := differs slot isSlot
    cases dirty : flags.saveDirty with
    | false => exact ⟨tracks, fun _ _ => dirty⟩
    | true =>
      have isClean : flags.scratchDirty = false := by
        by_contra notClean
        have := tracks.safe (by simpa using notClean) slot isSlot
        rw [dirty] at this
        cases this
      refine ⟨⟨?_, ?_, ?_, ?_⟩, fun _ _ => rfl⟩
      · intro l notReg notSlot
        rw [isSlot] at notSlot
        have other : l ≠ slot := fun same => notSlot (same ▸ rfl)
        exact (Function.update_of_ne other _ _).trans
          (tracks.others l notReg (isSlot ▸ notSlot))
      · intro _
        exact (Function.update_of_ne apart.symm _ _).trans (tracks.clean isClean)
      · intro _ slot' isSlot'
        rw [isSlot] at isSlot'
        cases isSlot'
        exact (Function.update_self slot _ _).trans (tracks.clean isClean)
      · intro _ _ _
        rfl

theorem runMoves_through (src reg dst : Allocation) (env : Allocation → V) :
    runMoves [(src, reg), (reg, dst)] env =
      Function.update (Function.update env reg (env src)) dst (env src) := by
  simp

/-- A move between two other locations, through the register. -/
theorem Tracks.through (tracks : Tracks scratch flags actual expected)
    (isSaved : ∀ slot, scratch.saveSlot = some slot → flags.saveDirty = false)
    (srcOther : move.src ≠ scratch.reg) (dstOther : move.dst ≠ scratch.reg)
    (avoided : ∀ slot, scratch.saveSlot = some slot → move.src ≠ slot ∧ move.dst ≠ slot)
    (differs : ∀ slot, scratch.saveSlot = some slot → slot ≠ scratch.reg) :
    Tracks scratch { flags with scratchDirty := true }
      (runMoves [(move.src, scratch.reg), (scratch.reg, move.dst)] actual)
      (Function.update expected move.dst (expected move.src)) where
  others l notReg notSlot := by
    have same : actual move.src = expected move.src :=
      tracks.others _ srcOther fun isSlot => (avoided _ isSlot).1 rfl
    rw [runMoves_through]
    by_cases isDst : l = move.dst
    · rw [isDst, Function.update_self, Function.update_self, same]
    · rw [Function.update_of_ne isDst, Function.update_of_ne notReg, Function.update_of_ne isDst]
      exact tracks.others l notReg notSlot
  clean isClean := by cases isClean
  saved isClean slot isSlot := by
    rw [runMoves_through, Function.update_of_ne (avoided slot isSlot).2.symm,
      Function.update_of_ne (differs slot isSlot), Function.update_of_ne dstOther.symm]
    exact tracks.saved isClean slot isSlot
  safe _ slot isSlot := isSaved slot isSlot

/-- The register has its value back before a move that reads it. -/
theorem Tracks.restore [Inhabited T] (tracks : Tracks scratch flags actual expected)
    (differs : ∀ slot, scratch.saveSlot = some slot → slot ≠ scratch.reg) {src : Allocation}
    {restored : List (Move T) × DirtyFlags}
    (result : MoveAndScratchResolver.restore scratch src flags = some restored) :
    Tracks scratch restored.2 (runMoves (restored.1.map Move.ends) actual) expected ∧
      (src = scratch.reg → restored.2.scratchDirty = false) := by
  unfold MoveAndScratchResolver.restore at result
  split at result
  · next reads =>
      obtain ⟨slot, isSlot, rfl⟩ := Option.map_eq_some_iff.mp result
      have isSaved := tracks.safe reads.2 slot isSlot
      refine ⟨⟨?_, ?_, ?_, ?_⟩, fun _ => rfl⟩
      · intro l notReg notSlot
        exact (Function.update_of_ne notReg _ _).trans (tracks.others l notReg notSlot)
      · intro _
        exact (Function.update_self scratch.reg _ _).trans (tracks.saved isSaved slot isSlot)
      · intro _ slot' isSlot'
        exact (Function.update_of_ne (differs slot' isSlot') _ _).trans
          (tracks.saved isSaved slot' isSlot')
      · intro isDirty
        cases isDirty
  · next notRead =>
      obtain rfl := Option.some.inj result
      exact ⟨tracks, fun reads => by simpa [reads] using notRead⟩

/-- A move that is kept. -/
theorem Tracks.direct (tracks : Tracks scratch flags actual expected)
    (restored : move.src = scratch.reg → flags.scratchDirty = false)
    (avoided : ∀ slot, scratch.saveSlot = some slot → move.src ≠ slot ∧ move.dst ≠ slot) :
    Tracks scratch (MoveAndScratchResolver.overwrite scratch move.dst flags)
      (Function.update actual move.dst (actual move.src))
      (Function.update expected move.dst (expected move.src)) := by
  have same : actual move.src = expected move.src := by
    by_cases reads : move.src = scratch.reg
    · rw [reads]
      exact tracks.clean (restored reads)
    · exact tracks.others _ reads fun isSlot => (avoided _ isSlot).1 rfl
  have others : ∀ l, l ≠ scratch.reg → scratch.saveSlot ≠ some l →
      Function.update actual move.dst (actual move.src) l =
        Function.update expected move.dst (expected move.src) l := by
    intro l notReg notSlot
    rw [Function.update_apply, Function.update_apply, same, tracks.others l notReg notSlot]
  unfold MoveAndScratchResolver.overwrite
  split
  · next writes =>
      refine ⟨others, fun _ => ?_, fun isSaved => ?_, fun isDirty => ?_⟩
      case refine_2 => cases isSaved
      case refine_3 => cases isDirty
      rw [← writes, Function.update_self, Function.update_self, same]
  · next keeps =>
      refine ⟨others, fun isClean => ?_, fun isSaved slot isSlot => ?_, tracks.safe⟩
      · rw [Function.update_of_ne (Ne.symm keeps), Function.update_of_ne (Ne.symm keeps)]
        exact tracks.clean isClean
      · rw [Function.update_of_ne (avoided slot isSlot).2.symm,
          Function.update_of_ne (Ne.symm keeps)]
        exact tracks.saved isSaved slot isSlot

end Scratch

namespace MoveAndScratchResolver

variable [Inhabited T] {V : Type} {r : MoveAndScratchResolver} {scratch : Scratch}
  {flags : DirtyFlags} {move : Move T} {moves : List (Move T)}

theorem not_stackToStack_from {src : Allocation} (notStack : r.isStackAlloc src = false)
    (dst : Allocation) : r.isStackToStackMove src dst = false := by
  simp [isStackToStackMove, notStack]

theorem not_stackToStack_to {dst : Allocation} (notStack : r.isStackAlloc dst = false)
    (src : Allocation) : r.isStackToStackMove src dst = false := by
  simp [isStackToStackMove, notStack]

/-- No move of the list is one from stack to stack. -/
def NoStackToStack (r : MoveAndScratchResolver) (moves : List (Move T)) : Prop :=
  ∀ move ∈ moves, r.isStackToStackMove move.src move.dst = false

theorem save_noStackToStack (notStack : r.isStackAlloc scratch.reg = false) :
    r.NoStackToStack (save (T := T) scratch flags).1 := by
  intro move member
  unfold save at member
  split at member
  · split at member
    · obtain rfl := List.mem_singleton.mp member
      exact not_stackToStack_from notStack _
    · cases member
  · cases member

theorem restore_noStackToStack (notStack : r.isStackAlloc scratch.reg = false) {src : Allocation}
    {restored : List (Move T) × DirtyFlags} (result : restore scratch src flags = some restored) :
    r.NoStackToStack restored.1 := by
  intro move member
  unfold restore at result
  split at result
  · obtain ⟨slot, _, rfl⟩ := Option.map_eq_some_iff.mp result
    obtain rfl := List.mem_singleton.mp member
    exact not_stackToStack_to notStack _
  · obtain rfl := Option.some.inj result
    cases member

variable (flags) in
/-- One round of the loop never fails and does what its move does. -/
theorem expandMove_spec (usable : scratch.Usable r [move]) :
    ∃ first, r.expandMove scratch move flags = some first ∧ r.NoStackToStack first.1 ∧
      ∀ actual expected : Allocation → V, scratch.Tracks flags actual expected →
        scratch.Tracks first.2 (runMoves (first.1.map Move.ends) actual)
          (Function.update expected move.dst (expected move.src)) := by
  have avoided : ∀ slot, scratch.saveSlot = some slot → move.src ≠ slot ∧ move.dst ≠ slot :=
    fun slot isSlot => usable.slotAvoided slot isSlot move List.mem_cons_self
  unfold expandMove
  split
  · next stackToStack =>
      have isStack := Bool.and_eq_true_iff.mp stackToStack
      have other : ∀ l, r.isStackAlloc l = true → l ≠ scratch.reg := by
        rintro l onStack rfl
        rw [usable.notStack] at onStack
        cases onStack
      refine ⟨_, rfl, ?_, ?_⟩
      · intro other member
        rcases List.mem_append.mp member with saved | through
        · exact save_noStackToStack usable.notStack other saved
        · rcases List.mem_cons.mp through with rfl | through
          · exact not_stackToStack_to usable.notStack _
          · obtain rfl := List.mem_singleton.mp through
            exact not_stackToStack_from usable.notStack _
      · intro actual expected tracks
        obtain ⟨saved, isSaved⟩ := tracks.save (T := T) usable.slotDiffers
        rw [List.map_append, runMoves_append]
        exact saved.through isSaved (other _ isStack.1) (other _ isStack.2) avoided
          usable.slotDiffers
  · next stays =>
      have found : ∃ restored, restore (T := T) scratch move.src flags = some restored := by
        unfold restore
        split
        · next reads =>
            cases isSlot : scratch.saveSlot with
            | none =>
              have unread := (usable.regAvoided isSlot move List.mem_cons_self).1
              exact absurd reads.1 unread
            | some slot => exact ⟨_, rfl⟩
        · exact ⟨_, rfl⟩
      obtain ⟨restored, result⟩ := found
      refine ⟨_, by rw [result]; rfl, ?_, ?_⟩
      · intro other member
        rcases List.mem_append.mp member with before | kept
        · exact restore_noStackToStack usable.notStack result other before
        · obtain rfl := List.mem_singleton.mp kept
          simpa using stays
      · intro actual expected tracks
        obtain ⟨ready, isRestored⟩ := tracks.restore usable.slotDiffers result
        rw [List.map_append, runMoves_append]
        exact ready.direct isRestored avoided

variable (flags) in
theorem expand_spec (usable : scratch.Usable r moves) :
    ∃ result, r.expand scratch moves flags = some result ∧ r.NoStackToStack result.1 ∧
      ∀ actual expected : Allocation → V, scratch.Tracks flags actual expected →
        scratch.Tracks result.2 (runMoves (result.1.map Move.ends) actual)
          (runMoves (moves.map Move.ends) expected) := by
  induction moves generalizing flags with
  | nil => exact ⟨_, rfl, fun _ member => (List.not_mem_nil member).elim, fun _ _ tracks => tracks⟩
  | cons move rest ih =>
    obtain ⟨first, isFirst, clean, step⟩ :=
      expandMove_spec (V := V) flags (usable.mono (by simp) : scratch.Usable r [move])
    obtain ⟨later, isLater, cleanLater, steps⟩ :=
      ih first.2 (usable.mono fun _ => List.mem_cons_of_mem _)
    refine ⟨(first.1 ++ later.1, later.2), ?_, ?_, ?_⟩
    · rw [expand, isFirst, Option.bind_some, isLater]
      rfl
    · intro other member
      rcases List.mem_append.mp member with before | after
      · exact clean other before
      · exact cleanLater other after
    · intro actual expected tracks
      rw [List.map_append, runMoves_append, List.map_cons, runMoves_cons]
      exact steps _ _ (step _ _ tracks)

/-- At the end a borrowed register has its value back. -/
theorem finalRestore_spec {actual expected : Allocation → V}
    (tracks : scratch.Tracks flags actual expected) (l : Allocation)
    (notSlot : scratch.saveSlot ≠ some l) (notFree : scratch.saveSlot = none → l ≠ scratch.reg) :
    runMoves ((finalRestore (T := T) scratch flags).map Move.ends) actual l = expected l := by
  unfold finalRestore
  cases isSlot : scratch.saveSlot with
  | none => exact tracks.others l (notFree isSlot) notSlot
  | some slot =>
    cases dirty : flags.scratchDirty with
    | false =>
      show actual l = expected l
      by_cases isReg : l = scratch.reg
      · rw [isReg]
        exact tracks.clean dirty
      · exact tracks.others l isReg notSlot
    | true =>
      show Function.update actual scratch.reg (actual slot) l = expected l
      by_cases isReg : l = scratch.reg
      · rw [isReg, Function.update_self]
        exact tracks.saved (tracks.safe dirty slot isSlot) slot isSlot
      · rw [Function.update_of_ne isReg]
        exact tracks.others l isReg notSlot

/-! ## The whole resolver -/

/-- The answers of the closures are registers and slots that occur in no move, and pairwise
different.  The resolver asks for at most two slots. -/
structure FreshAnswers (r : MoveAndScratchResolver) (moves : List (Move T)) : Prop where
  regIsReg : ∀ k reg, r.findFreeReg k = some reg →
    reg.kind = .reg ∧ r.isStackAlloc reg = false
  regAvoided : ∀ k reg, r.findFreeReg k = some reg → Avoids reg moves
  regDistinct : ∀ j k reg, r.findFreeReg j = some reg → r.findFreeReg k = some reg → j = k
  slotIsStack : ∀ k < 2, (r.getStackslot k).kind = .stack
  slotAvoided : ∀ k < 2, Avoids (r.getStackslot k) moves
  slotDistinct : ∀ j < 2, ∀ k < 2, r.getStackslot j = r.getStackslot k → j = k
  borrowedIsReg : r.borrowedScratchReg.kind = .reg ∧ r.isStackAlloc r.borrowedScratchReg = false

namespace FreshAnswers

variable {calls : Calls}

omit [Inhabited T] in
theorem reg_not_handed (fresh : r.FreshAnswers moves) (few : calls.slots ≤ 2) {reg : Allocation}
    (answer : r.findFreeReg calls.regs = some reg) : ¬ r.Handed calls reg := by
  rintro (⟨k, before, same⟩ | ⟨k, before, same⟩)
  · have := fresh.regDistinct k calls.regs reg same answer
    omega
  · have isStack := fresh.slotIsStack k (by omega)
    rw [same, (fresh.regIsReg _ _ answer).1] at isStack
    cases isStack

omit [Inhabited T] in
theorem slot_not_handed (fresh : r.FreshAnswers moves) (few : calls.slots < 2) :
    ¬ r.Handed calls (r.getStackslot calls.slots) := by
  rintro (⟨k, _, same⟩ | ⟨k, before, same⟩)
  · have isReg := (fresh.regIsReg k _ same).1
    rw [fresh.slotIsStack _ few] at isReg
    cases isReg
  · have := fresh.slotDistinct k (by omega) calls.slots few same
    omega

omit [Inhabited T] in
/-- The register that `compute` takes for moves between stack slots can be used. -/
theorem scratch_usable (fresh : r.FreshAnswers moves) (few : calls.slots < 2)
    {filled : List (Move T)}
    (avoids : ∀ l, Avoids l moves → ¬ r.Handed calls l → Avoids l filled) :
    (r.scratch calls).1.Usable r filled := by
  unfold MoveAndScratchResolver.scratch
  split
  · next reg answer =>
      constructor
      · exact (fresh.regIsReg _ _ answer).2
      · exact fun slot isSlot => by cases isSlot
      · exact fun slot isSlot => by cases isSlot
      · exact fun _ => avoids reg (fresh.regAvoided _ _ answer) (fresh.reg_not_handed few.le answer)
  · next noReg =>
      constructor
      · exact fresh.borrowedIsReg.2
      · intro slot isSlot same
        obtain rfl := Option.some.inj isSlot
        have isStack := fresh.slotIsStack _ few
        rw [show r.getStackslot calls.slots = r.borrowedScratchReg from same,
          fresh.borrowedIsReg.1] at isStack
        cases isStack
      · intro slot isSlot
        obtain rfl := Option.some.inj isSlot
        exact avoids _ (fresh.slotAvoided _ few) (fresh.slot_not_handed few)
      · exact fun isNone => by cases isNone

end FreshAnswers

omit [Inhabited T] in
theorem handed_scratch {calls : Calls} {l : Allocation} :
    r.Handed (r.scratch calls).2 l ↔ r.Handed calls l ∨
      (r.scratch calls).1.saveSlot = some l ∨
        (r.scratch calls).1.saveSlot = none ∧ (r.scratch calls).1.reg = l := by
  unfold MoveAndScratchResolver.scratch
  cases answer : r.findFreeReg calls.regs with
  | some reg =>
    simp only [Handed, Nat.exists_lt_succ_right, answer, Option.some.injEq, reduceCtorEq, false_or,
      true_and]
    exact or_right_comm
  | none =>
    simp only [Handed, Nat.exists_lt_succ_right, answer, Option.some.injEq, reduceCtorEq, or_false,
      false_and]
    exact or_assoc.symm

omit [Inhabited T] in
theorem slots_scratch (calls : Calls) : (r.scratch calls).2.slots ≤ calls.slots + 1 := by
  unfold MoveAndScratchResolver.scratch
  split
  · exact Nat.le_succ _
  · exact le_rfl

theorem fillCycles_spec [DecidableEq T] (distinct : DistinctDests moves)
    (located : ∀ move ∈ moves, move.Located) (fresh : r.FreshAnswers moves) :
    ∃ filled, r.fillCycles (resolve moves) = some filled ∧ filled.2.slots < 2 ∧
      (∀ l, Avoids l moves → ¬ r.Handed filled.2 l → Avoids l filled.1) ∧
      ∀ (env : Allocation → V) l, ¬ r.Handed filled.2 l →
        runMoves (filled.1.map Move.ends) env l = assignMoves (moves.map Move.ends) env l := by
  have correct := fun env : Allocation → V => resolve_correct distinct located env
  unfold fillCycles
  cases result : resolve moves with
  | noScratch sequence =>
    refine ⟨(sequence, ⟨0, 0⟩), rfl, Nat.zero_lt_two, ?_, ?_⟩
    · intro l avoids _ move member
      exact avoids move (resolve_noScratch_mem distinct located result move member)
    · intro env l _
      exact (correct env).2 sequence result l
  | scratch sequence =>
    -- a free register or the first slot
    have filled : ∀ s calls, Avoids s moves → r.Handed calls s →
        (∀ l, Avoids l moves → ¬ r.Handed calls l →
          Avoids l ((MoveVecWithScratch.scratch sequence).withScratch s)) ∧
        ∀ (env : Allocation → V) l, ¬ r.Handed calls l →
          runMoves (((MoveVecWithScratch.scratch sequence).withScratch s).map Move.ends) env l =
            assignMoves (moves.map Move.ends) env l := by
      intro s calls avoidsS handed
      rw [← result]
      have differ : ∀ l, ¬ r.Handed calls l → l ≠ s := by
        rintro l notHanded rfl
        exact notHanded handed
      exact ⟨fun l avoids notHanded =>
          resolve_avoids distinct located avoids (differ l notHanded),
        fun env l notHanded => (correct env).1 s avoidsS l (differ l notHanded)⟩
    show ∃ filled, (match r.findFreeReg 0 with
      | some scratch => _
      | none => _) = some filled ∧ _
    cases answer : r.findFreeReg 0 with
    | some reg =>
      refine ⟨_, rfl, Nat.zero_lt_two, ?_⟩
      exact filled reg ⟨1, 0⟩ (fresh.regAvoided 0 reg answer) (.inl ⟨0, by decide, answer⟩)
    | none =>
      refine ⟨_, rfl, Nat.one_lt_two, ?_⟩
      exact filled _ ⟨1, 1⟩ (fresh.slotAvoided 0 (by decide)) (.inr ⟨0, by decide, rfl⟩)

theorem finalRestore_noStackToStack (notStack : r.isStackAlloc scratch.reg = false) :
    r.NoStackToStack (finalRestore (T := T) scratch flags) := by
  intro move member
  unfold finalRestore at member
  split at member
  · split at member
    · obtain rfl := List.mem_singleton.mp member
      exact not_stackToStack_to notStack _
    · cases member
  · cases member

theorem compute_spec [DecidableEq T] (distinct : DistinctDests moves)
    (located : ∀ move ∈ moves, move.Located) (fresh : r.FreshAnswers moves) :
    ∃ sequence calls, r.compute (resolve moves) = some (sequence, calls) ∧ calls.slots ≤ 2 ∧
      r.NoStackToStack sequence ∧ ∀ (env : Allocation → V) l, ¬ r.Handed calls l →
        runMoves (sequence.map Move.ends) env l = assignMoves (moves.map Move.ends) env l := by
  obtain ⟨filled, isFilled, few, avoids, effect⟩ := fillCycles_spec (V := V) distinct located fresh
  unfold compute
  rw [isFilled, Option.bind_some]
  split
  · next someStackToStack =>
      have usable := fresh.scratch_usable few avoids
      obtain ⟨result, isResult, clean, tracks⟩ :=
        expand_spec (V := V) ⟨false, true⟩ usable
      rw [isResult]
      refine ⟨_, _, rfl, ?_, ?_, ?_⟩
      · have := slots_scratch (r := r) filled.2
        omega
      · intro move member
        rcases List.mem_append.mp member with before | last
        · exact clean move before
        · exact finalRestore_noStackToStack usable.notStack move last
      · intro env l notHanded
        rw [handed_scratch] at notHanded
        push Not at notHanded
        rw [← effect env l notHanded.1, List.map_append, runMoves_append]
        exact finalRestore_spec (tracks _ _ (Scratch.Tracks.refl env)) l notHanded.2.1
          fun free => (notHanded.2.2 free).symm
  · next noStackToStack =>
      refine ⟨_, _, rfl, few.le, ?_, effect⟩
      intro move member
      simpa using List.any_eq_false.mp (by simpa using noStackToStack) move member

/-- The result has no move from stack to stack, and the effect of the parallel assignment
everywhere but at the registers and slots that were handed out; a register that was only
borrowed is none of them. -/
theorem compute_correct [DecidableEq T] (distinct : DistinctDests moves)
    (located : ∀ move ∈ moves, move.Located) (fresh : r.FreshAnswers moves) :
    ∃ sequence calls, r.compute (resolve moves) = some (sequence, calls) ∧
      r.NoStackToStack sequence ∧
      (∀ (env : Allocation → V) l, ¬ r.Handed calls l →
        runMoves (sequence.map Move.ends) env l = assignMoves (moves.map Move.ends) env l) ∧
      ((∀ k < calls.regs, r.findFreeReg k ≠ some r.borrowedScratchReg) →
        ∀ env : Allocation → V, runMoves (sequence.map Move.ends) env r.borrowedScratchReg =
          assignMoves (moves.map Move.ends) env r.borrowedScratchReg) := by
  obtain ⟨sequence, calls, result, few, clean, effect⟩ :=
    compute_spec (V := V) distinct located fresh
  refine ⟨sequence, calls, result, clean, effect, fun borrowed env => effect env _ ?_⟩
  rintro (⟨k, before, same⟩ | ⟨k, before, same⟩)
  · exact borrowed k before same
  · have isStack := fresh.slotIsStack k (by omega)
    rw [same, fresh.borrowedIsReg.1] at isStack
    cases isStack

/-- No register is free, and the borrowed one is exchanged with another. -/
def busy : MoveAndScratchResolver where
  findFreeReg _ := none
  getStackslot k := ⟨.stack, 2 + k % 2, by omega⟩
  isStackAlloc a := a.kind = .stack
  borrowedScratchReg := register 0

def slot (index : Fin 2) : Allocation := ⟨.stack, index, by omega⟩

def slotsAndRegisters : List (Move Nat) :=
  [⟨slot 0, slot 1, 0⟩, ⟨slot 1, slot 0, 0⟩, ⟨register 0, register 1, 0⟩,
    ⟨register 1, register 0, 0⟩]

theorem compute_slotsAndRegisters :
    ∃ sequence calls, busy.compute (resolve slotsAndRegisters) = some (sequence, calls) ∧
      runMoves (sequence.map Move.ends) Allocation.bits (register 0) = (register 1).bits := by
  have fresh : busy.FreshAnswers slotsAndRegisters :=
    { regIsReg := fun k reg answer => by cases answer
      regAvoided := fun k reg answer => by cases answer
      regDistinct := fun j k reg answer => by cases answer
      slotIsStack := by decide
      slotAvoided := by unfold Avoids; decide
      slotDistinct := by decide
      borrowedIsReg := by decide }
  have distinct : DistinctDests slotsAndRegisters := by unfold DistinctDests; decide
  obtain ⟨sequence, calls, result, _, _, borrowed⟩ :=
    compute_correct distinct (by unfold Move.Located; decide) fresh (V := Nat)
  refine ⟨sequence, calls, result, ?_⟩
  rw [show register 0 = busy.borrowedScratchReg from rfl,
    borrowed (fun k _ answer => by cases answer)]
  decide

end MoveAndScratchResolver

end AnonCompiler.Mir
