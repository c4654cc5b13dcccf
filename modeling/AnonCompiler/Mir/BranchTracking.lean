import AnonCompiler.Mir.SlotProgram

/-!
# Following the plain program through branch optimisation

The buffer built with branch optimisation is compared with the one built by the
same calls without it.  The invariant `Tracks` relates the optimised buffer at
any moment of the emission to the *finished* plain program: `g i` is the plain
slot at which the optimised slot `i` stands, control flows silently from the
place where the plain program binds a label to the place where the optimised
one does, and every optimised branch is answered by at least one plain branch.

The optimiser removes a branch only at the tail.  It finds the labels it has to
move or to redirect in two lists, so the invariant also says that these lists
are complete and exact (`Recorded`).
-/

set_option autoImplicit false

namespace AnonCompiler.Mir

open Lib Lib.Machine

/-! ## The invariant -/

section Tracks

variable (plain : EmitBuffer) (taken : Outcome)

/-- Control goes silently from slot `p` to slot `q` of the plain program,
whatever was executed before. -/
def Flow (p q : Nat) : Prop :=
  ∀ executed, (slotMachine plain taken).Silent ⟨p, executed⟩ ⟨q, executed⟩

/-- The same with at least one step, after the given executed texts. -/
def FlowPlus (p q : Nat) (executed : List String) : Prop :=
  (slotMachine plain taken).SilentPlus ⟨p, executed⟩ ⟨q, executed⟩

/-- What an optimised slot that stands at the plain slot `p`, with its successor
at `q`, asks of the plain program. -/
def SlotTracks (p q : Nat) : Slot → Prop
  | .text text => plain.slots[p]? = some (.text text) ∧ Flow plain taken (p + 1) q
  | .branch branch => ∃ target off, branch.target = .block target ∧
      plain.labelOffsets target = some off ∧
      match branch.invPrefix with
      | none => ∀ executed, FlowPlus plain taken p off executed
      | some inverted => ∀ executed,
          taken executed inverted = !taken executed branch.prefixText ∧
          FlowPlus plain taken p
            (if taken executed branch.prefixText = true then off else q) executed
  | .veneer _ => False

/-- The records of the optimised buffer are complete and exact: they list the
unaliased labels bound at the tail and at each recorded branch. -/
structure Recorded (b : EmitBuffer) : Prop where
  acyclic : Acyclic b.labelAliases b.blockLabels.length
  offset_le : ∀ {label off}, b.labelOffsets label = some off → b.labelAliases label = none →
    off ≤ b.slots.length
  aliased_bound : ∀ {label target}, b.labelAliases label = some target →
    b.labelOffsets label ≠ none
  tailOff_le : b.labelsAtTailOff ≤ b.slots.length
  tail_complete : ∀ {label}, b.labelOffsets label = some b.slots.length →
    b.labelAliases label = none → b.labelsAtTailOff = b.slots.length ∧ label ∈ b.labelsAtTail
  tail_exact : b.labelsAtTailOff = b.slots.length → ∀ label ∈ b.labelsAtTail,
    b.labelOffsets label = some b.slots.length ∧ b.labelAliases label = none
  decreasing : b.latestBranches.Pairwise fun later earlier => earlier.start < later.start
  branch_lt : ∀ record ∈ b.latestBranches, record.start < b.slots.length
  branch_slot : ∀ record ∈ b.latestBranches, ∃ branch,
    b.slots[record.start]? = some (.branch branch)
  branch_complete : ∀ record ∈ b.latestBranches, ∀ {label},
    b.labelOffsets label = some record.start → b.labelAliases label = none →
      label ∈ record.labelsAtThisBranch
  branch_exact : ∀ record ∈ b.latestBranches, ∀ label ∈ record.labelsAtThisBranch,
    b.labelOffsets label = some record.start ∧ b.labelAliases label = none

/-- The optimised buffer `b` follows the finished plain program, of which the
first `emitted` slots belong to the calls made so far. -/
structure Tracks (emitted : Nat) (b : EmitBuffer) (g : Nat → Nat) : Prop where
  tail : g b.slots.length = emitted
  entry : Flow plain taken 0 (g 0)
  slot : ∀ {i slot}, b.slots[i]? = some slot → SlotTracks plain taken (g i) (g (i + 1)) slot
  aliased : ∀ {label target}, b.labelAliases label = some target →
    ∃ p q, plain.labelOffsets label = some p ∧ plain.labelOffsets target = some q ∧
      Flow plain taken p q
  bound : ∀ {label off}, b.labelOffsets label = some off → b.labelAliases label = none →
    ∃ p, plain.labelOffsets label = some p ∧ Flow plain taken p (g off)
  labels : b.blockLabels = plain.blockLabels
  recorded : Recorded b

variable {plain taken}

variable {p q r : Nat}

theorem Flow.refl (p : Nat) : Flow plain taken p p := fun _ => .refl _

theorem Flow.trans (first : Flow plain taken p q) (second : Flow plain taken q r) :
    Flow plain taken p r := fun executed => (first executed).trans (second executed)

/-- Moving the successor further along the flow keeps what a slot asks. -/
theorem SlotTracks.mono {slot : Slot} (tracks : SlotTracks plain taken p q slot)
    (flow : Flow plain taken q r) : SlotTracks plain taken p r slot := by
  cases slot with
  | text text => exact ⟨tracks.1, tracks.2.trans flow⟩
  | veneer veneer => exact tracks
  | branch branch =>
    obtain ⟨target, off, block, bound, paths⟩ := tracks
    refine ⟨target, off, block, bound, ?_⟩
    cases inv : branch.invPrefix with
    | none => simpa only [inv] using paths
    | some inverted =>
      rw [inv] at paths
      intro executed
      obtain ⟨complement, path⟩ := paths executed
      refine ⟨complement, ?_⟩
      split
      · simpa [*] using path
      · have through : FlowPlus plain taken p q executed := by simpa [*] using path
        exact through.trans_silent (flow executed)

/-- What an unconditional branch asks does not mention its successor. -/
theorem SlotTracks.of_unconditional {branch : BranchRef}
    (tracks : SlotTracks plain taken p q (.branch branch))
    (unconditional : branch.invPrefix = none) : SlotTracks plain taken p r (.branch branch) := by
  obtain ⟨target, off, block, bound, paths⟩ := tracks
  refine ⟨target, off, block, bound, ?_⟩
  simpa only [unconditional] using paths

end Tracks

/-! ## Labels of a tracked buffer -/

variable {label : MirBlockIndex} {b t : EmitBuffer}

theorem aliasPath_of_aliasRoot {aliases : MirBlockIndex → Option MirBlockIndex} {fuel : Nat}
    {root : MirBlockIndex} (h : aliasRoot aliases fuel label = some root) :
    ∃ path, AliasPath aliases label path root := by
  induction fuel generalizing label with
  | zero => cases h
  | succ fuel ih =>
    rw [aliasRoot] at h
    split at h
    · next target hop =>
        obtain ⟨path, chain⟩ := ih h
        exact ⟨_, .next hop chain⟩
    · next free =>
        obtain rfl := Option.some.inj h
        exact ⟨_, .root free⟩

theorem resolveLabelOffset_eq_some {off : Option Nat} (h : b.resolveLabelOffset label = some off) :
    ∃ path root, AliasPath b.labelAliases label path root ∧ b.labelOffsets root = off := by
  simp only [EmitBuffer.resolveLabelOffset, EmitBuffer.resolved, Option.map_eq_some_iff] at h
  obtain ⟨root, hroot, hoff⟩ := h
  obtain ⟨path, chain⟩ := aliasPath_of_aliasRoot hroot
  exact ⟨path, root, chain, hoff⟩

namespace Tracks

variable {plain : EmitBuffer} {taken : Outcome} {emitted : Nat} {b : EmitBuffer} {g : Nat → Nat}

variable {label root : MirBlockIndex} {path : List MirBlockIndex} {off : Nat}

section

variable (tracks : Tracks plain taken emitted b g)
include tracks

/-- Control flows from where the plain program binds a label to where the
optimised one does, after alias resolution. -/
theorem label_flow (chain : AliasPath b.labelAliases label path root)
    (bound : b.labelOffsets root = some off) :
    ∃ p, plain.labelOffsets label = some p ∧ Flow plain taken p (g off) := by
  induction chain with
  | root free => exact tracks.bound bound free
  | next hop _ ih =>
    obtain ⟨p, q, hp, hq, flow⟩ := tracks.aliased hop
    obtain ⟨q', hq', flow'⟩ := ih bound
    obtain rfl := Option.some.inj (hq.symm.trans hq')
    exact ⟨p, hp, flow.trans flow'⟩

/-- The plain program binds the root of every chain that starts at a label it
binds. -/
theorem chain_bound {p : Nat} (chain : AliasPath b.labelAliases label path root)
    (bound : plain.labelOffsets label = some p) : ∃ q, plain.labelOffsets root = some q := by
  induction chain generalizing p with
  | root _ => exact ⟨p, bound⟩
  | next hop _ ih =>
    obtain ⟨_, q, -, hq, -⟩ := tracks.aliased hop
    exact ih hq

theorem resolved_flow (h : b.resolveLabelOffset label = some (some off)) :
    ∃ p, plain.labelOffsets label = some p ∧ Flow plain taken p (g off) := by
  obtain ⟨path, root, chain, bound⟩ := resolveLabelOffset_eq_some h
  exact tracks.label_flow chain bound

/-- The labels the plain program binds resolve in the optimised buffer. -/
theorem resolve_ne_none (lt : label < plain.blockLabels.length) :
    ∃ path root, AliasPath b.labelAliases label path root ∧
      b.resolveLabelOffset label = some (b.labelOffsets root) := by
  rw [← tracks.labels] at lt
  obtain ⟨path, root, chain⟩ := tracks.recorded.acyclic.chain label lt
  refine ⟨path, root, chain, ?_⟩
  simp only [EmitBuffer.resolveLabelOffset, EmitBuffer.resolved,
    tracks.recorded.acyclic.aliasRoot_eq chain lt, Option.map_some]

end

end Tracks

/-! ## The edits of the optimiser -/

/-- The two buffers have the same pending text and bind the same labels. -/
structure SameBound (b t : EmitBuffer) : Prop where
  pending : t.pending = b.pending
  unbound : ∀ label, t.labelOffsets label = none ↔ b.labelOffsets label = none

theorem SameBound.refl (b : EmitBuffer) : SameBound b b := ⟨rfl, fun _ => Iff.rfl⟩

theorem SameBound.trans {u : EmitBuffer} (first : SameBound b t) (second : SameBound t u) :
    SameBound b u :=
  ⟨second.pending.trans first.pending,
    fun label => (second.unbound label).trans (first.unbound label)⟩

theorem lazilyClear_tailOff (le : b.labelsAtTailOff ≤ b.slots.length) :
    b.lazilyClearLabelsAtTail.labelsAtTailOff = b.slots.length := by
  unfold EmitBuffer.lazilyClearLabelsAtTail
  split
  · rfl
  · omega

/-- Clearing the tail labels lazily changes nothing but the list, and only when
no label is bound at the tail. -/
theorem lazilyClear_spec (b : EmitBuffer) :
    ∃ labels off, b.lazilyClearLabelsAtTail =
        { b with labelsAtTail := labels, labelsAtTailOff := off } ∧
      (labels = [] ∧ b.labelsAtTailOff < b.slots.length ∧ off = b.slots.length ∨
        labels = b.labelsAtTail ∧ off = b.labelsAtTailOff ∧
          b.slots.length ≤ b.labelsAtTailOff) := by
  unfold EmitBuffer.lazilyClearLabelsAtTail
  split
  · next moved => exact ⟨[], b.slots.length, rfl, .inl ⟨rfl, moved, rfl⟩⟩
  · next stays => exact ⟨b.labelsAtTail, b.labelsAtTailOff, rfl, .inr ⟨rfl, rfl, by omega⟩⟩

theorem purge_spec (b : EmitBuffer) :
    ∃ records, b.purgeLatestBranches = { b with latestBranches := records } := by
  unfold EmitBuffer.purgeLatestBranches
  split
  · exact ⟨_, rfl⟩
  · split <;> exact ⟨_, rfl⟩

/-- What `truncateLastBranch` returns. -/
theorem truncateLastBranch_eq {last : BranchRec} {earlier : List BranchRec}
    (latest : b.latestBranches = last :: earlier) (cut : b.truncateLastBranch = some t) :
    t = { b.lazilyClearLabelsAtTail with
      slots := b.slots.take last.start
      latestBranches := earlier
      labelsAtTailOff := last.start
      labelOffsets := EmitBuffer.moveLabels b.labelOffsets
        b.lazilyClearLabelsAtTail.labelsAtTail last.start
      labelsAtTail := b.lazilyClearLabelsAtTail.labelsAtTail ++ last.labelsAtThisBranch } := by
  obtain ⟨labels, off, equal, -⟩ := lazilyClear_spec b
  unfold EmitBuffer.truncateLastBranch at cut
  simp only [equal, latest] at cut
  rw [equal]
  exact (Option.some.inj cut).symm

namespace Recorded

/-- The empty buffer has no records. -/
theorem new (blockLabels : List String) (enabled : Bool) : Recorded (.new blockLabels enabled) where
  acyclic := ⟨fun label _ => ⟨_, label, .root rfl⟩, by simp [EmitBuffer.new]⟩
  offset_le := by simp [EmitBuffer.new]
  aliased_bound := by simp [EmitBuffer.new]
  tailOff_le := by simp [EmitBuffer.new]
  tail_complete := by simp [EmitBuffer.new]
  tail_exact := by simp [EmitBuffer.new]
  decreasing := List.Pairwise.nil
  branch_lt := by simp [EmitBuffer.new]
  branch_slot := by simp [EmitBuffer.new]
  branch_complete := by simp [EmitBuffer.new]
  branch_exact := by simp [EmitBuffer.new]

variable {b : EmitBuffer}

theorem lazilyClear (recorded : Recorded b) : Recorded b.lazilyClearLabelsAtTail := by
  obtain ⟨labels, off, equal, cases⟩ := lazilyClear_spec b
  rw [equal]
  rcases cases with ⟨rfl, moved, rfl⟩ | ⟨rfl, rfl, -⟩
  · exact
      { recorded with
        tailOff_le := Nat.le_refl _
        tail_complete := fun bound free => by
          have := (recorded.tail_complete bound free).1
          omega
        tail_exact := fun _ label member => absurd member (by simp) }
  · exact recorded

/-- Removing the last branch keeps the records exact. -/
theorem truncate (recorded : Recorded b) {last : BranchRec} {earlier : List BranchRec}
    {t : EmitBuffer} (latest : b.latestBranches = last :: earlier)
    (atTail : last.start + 1 = b.slots.length) (tailOff : b.labelsAtTailOff = b.slots.length)
    (slots : t.slots.length = last.start)
    (branches : ∀ record ∈ earlier, ∃ branch, t.slots[record.start]? = some (.branch branch))
    (aliases : t.labelAliases = b.labelAliases) (names : t.blockLabels = b.blockLabels)
    (records : t.latestBranches = earlier) (newTailOff : t.labelsAtTailOff = last.start)
    (offsets : t.labelOffsets = EmitBuffer.moveLabels b.labelOffsets b.labelsAtTail last.start)
    (newTail : t.labelsAtTail = b.labelsAtTail ++ last.labelsAtThisBranch) : Recorded t := by
  have order := recorded.decreasing
  rw [latest, List.pairwise_cons] at order
  have lastMember : last ∈ b.latestBranches := by simp [latest]
  have earlierMember : ∀ record ∈ earlier, record ∈ b.latestBranches := by
    intro record member
    simp [latest, member]
  have exact := recorded.tail_exact tailOff
  refine
    { acyclic := by rw [aliases, names]; exact recorded.acyclic
      offset_le := ?_, aliased_bound := ?_, tailOff_le := by omega
      tail_complete := ?_, tail_exact := ?_, decreasing := by rw [records]; exact order.2
      branch_lt := ?_, branch_slot := by rw [records]; exact branches
      branch_complete := ?_, branch_exact := ?_ }
  · intro label off bound free
    rw [offsets, EmitBuffer.moveLabels] at bound
    rw [aliases] at free
    split at bound
    · obtain rfl := Option.some.inj bound
      omega
    · next notTail =>
        have le := recorded.offset_le bound free
        rcases Nat.lt_or_ge off b.slots.length with lt | ge
        · omega
        · have : off = b.slots.length := by omega
          exact absurd (recorded.tail_complete (this ▸ bound) free).2 notTail
  · intro label target hop
    rw [aliases] at hop
    rw [offsets, EmitBuffer.moveLabels]
    split
    · simp
    · exact recorded.aliased_bound hop
  · intro label bound free
    rw [slots, offsets, EmitBuffer.moveLabels] at bound
    rw [aliases] at free
    rw [newTailOff, newTail, slots]
    refine ⟨rfl, List.mem_append.mpr ?_⟩
    split at bound
    · next tail => exact .inl tail
    · exact .inr (recorded.branch_complete last lastMember bound free)
  · intro _ label member
    rw [offsets, aliases, slots, EmitBuffer.moveLabels]
    rw [newTail, List.mem_append] at member
    rcases member with tail | atBranch
    · exact ⟨by simp [tail], (exact label tail).2⟩
    · obtain ⟨bound, free⟩ := recorded.branch_exact last lastMember label atBranch
      exact ⟨by simp [bound], free⟩
  · intro record member
    rw [records] at member
    rw [slots]
    exact order.1 record member
  · intro record member label bound free
    rw [records] at member
    rw [offsets, EmitBuffer.moveLabels] at bound
    rw [aliases] at free
    have lt := order.1 record member
    split at bound
    · have := Option.some.inj bound
      omega
    · exact recorded.branch_complete record (earlierMember record member) bound free
  · intro record member label atBranch
    rw [records] at member
    obtain ⟨bound, free⟩ :=
      recorded.branch_exact record (earlierMember record member) label atBranch
    rw [offsets, aliases, EmitBuffer.moveLabels]
    refine ⟨?_, free⟩
    have lt := order.1 record member
    split
    · next tail =>
        have := Option.some.inj ((exact label tail).1.symm.trans bound)
        omega
    · exact bound

section Cut

variable {t : EmitBuffer} {last : BranchRec} {earlier : List BranchRec}

section

variable (recorded : Recorded b) (latest : b.latestBranches = last :: earlier)
include recorded latest

/-- A branch record that is not in the past of the buffer is at its tail. -/
theorem last_lt (atTail : ¬ last.start + 1 < b.slots.length) : last.start + 1 = b.slots.length := by
  have := recorded.branch_lt last (by simp [latest])
  omega

theorem earlier_lt :
    ∀ record ∈ earlier, record.start < last.start ∧
      ∃ branch, (b.slots.take last.start)[record.start]? = some (.branch branch) := by
  intro record member
  have order := recorded.decreasing
  rw [latest, List.pairwise_cons] at order
  have lt := order.1 record member
  obtain ⟨branch, hbranch⟩ := recorded.branch_slot record (by simp [latest, member])
  exact ⟨lt, branch, by rw [List.getElem?_take_of_lt lt, hbranch]⟩

theorem length_take : (b.slots.take last.start).length = last.start := by
  have := recorded.branch_lt last (by simp [latest])
  rw [List.length_take]
  omega

section

variable (atTail : ¬ last.start + 1 < b.slots.length) (truncated : b.truncateLastBranch = some t)
include atTail truncated

/-- Removing the last branch, with other slots of the same kind before it. -/
theorem cut {slots : List Slot} (length : slots.length = last.start)
    (branches : ∀ record ∈ earlier, ∃ branch, slots[record.start]? = some (.branch branch)) :
    Recorded { t with slots := slots } := by
  have cleared := recorded.lazilyClear
  have tailOff := lazilyClear_tailOff recorded.tailOff_le
  have whole := truncateLastBranch_eq latest truncated
  obtain ⟨tailLabels, off, equal, -⟩ := lazilyClear_spec b
  rw [equal] at cleared tailOff whole
  subst whole
  exact cleared.truncate latest (recorded.last_lt latest atTail) tailOff length branches rfl rfl
    rfl rfl rfl rfl

theorem cut_take : Recorded t := by
  have slots : t.slots = b.slots.take last.start := by rw [truncateLastBranch_eq latest truncated]
  have result : Recorded { t with slots := t.slots } := recorded.cut latest atTail truncated
    (by rw [slots]; exact recorded.length_take latest)
    fun record member => by rw [slots]; exact (recorded.earlier_lt latest record member).2
  exact result

theorem cut_set (i : Nat) (branch : BranchRef) : Recorded (t.setSlot i (.branch branch)) := by
  have slots : t.slots = b.slots.take last.start := by rw [truncateLastBranch_eq latest truncated]
  apply recorded.cut latest atTail truncated
  · rw [slots, List.length_set]
    exact recorded.length_take latest
  · intro record member
    obtain ⟨lt, old, isOld⟩ := recorded.earlier_lt latest record member
    rw [slots]
    by_cases same : i = record.start
    · refine ⟨branch, ?_⟩
      rw [same]
      exact List.getElem?_set_self (by rw [recorded.length_take latest]; exact lt)
    · exact ⟨old, by rw [List.getElem?_set_ne same, isOld]⟩

end

end

end Cut

section

variable (recorded : Recorded b)
include recorded

/-- Threading the labels of the last branch keeps the records exact. -/
theorem thread {last : BranchRec} {earlier : List BranchRec} {target : MirBlockIndex}
    {targetOff : Option Nat} (latest : b.latestBranches = last :: earlier)
    (offset : b.resolveLabelOffset target = some targetOff)
    (elsewhere : targetOff ≠ some last.start) (lt : target < b.blockLabels.length) :
    Recorded (b.threadLabels last earlier target) := by
  have order := recorded.decreasing
  rw [latest, List.pairwise_cons] at order
  have lastMember : last ∈ b.latestBranches := by simp [latest]
  have earlierMember : ∀ record ∈ earlier, record ∈ b.latestBranches := by
    intro record member
    simp [latest, member]
  have atLast := recorded.branch_exact last lastMember
  obtain ⟨path, root, chain, rootOff⟩ := resolveLabelOffset_eq_some offset
  have rootElsewhere : root ∉ last.labelsAtThisBranch := by
    intro member
    exact elsewhere (rootOff.symm.trans (atLast root member).1)
  have free_of : ∀ {label},
      EmitBuffer.aliasLabels b.labelAliases last.labelsAtThisBranch target label = none →
        b.labelAliases label = none ∧ label ∉ last.labelsAtThisBranch := by
    intro label free
    unfold EmitBuffer.aliasLabels at free
    split at free
    · cases free
    · next notMember => exact ⟨free, notMember⟩
  have still_free : ∀ {label off}, b.labelOffsets label = some off → off ≠ last.start →
      b.labelAliases label = none →
        EmitBuffer.aliasLabels b.labelAliases last.labelsAtThisBranch target label = none := by
    intro label off bound away free
    have notMember : label ∉ last.labelsAtThisBranch := by
      intro member
      exact away (Option.some.inj (bound.symm.trans (atLast label member).1))
    simp [EmitBuffer.aliasLabels, notMember, free]
  have lastLt := recorded.branch_lt last lastMember
  refine
    { acyclic := recorded.acyclic.aliasLabels lt chain
        (fun label member => (atLast label member).2) rootElsewhere
      offset_le := fun bound free => recorded.offset_le bound (free_of free).1
      aliased_bound := ?_, tailOff_le := recorded.tailOff_le
      tail_complete := fun bound free => recorded.tail_complete bound (free_of free).1
      tail_exact := ?_
      decreasing := List.pairwise_cons.mpr ⟨order.1, order.2⟩
      branch_lt := ?_, branch_slot := ?_, branch_complete := ?_, branch_exact := ?_ }
  · intro label next hop
    simp only [EmitBuffer.threadLabels, EmitBuffer.aliasLabels] at hop ⊢
    split at hop
    · next member => simp [(atLast label member).1]
    · exact recorded.aliased_bound hop
  · intro atTail label member
    obtain ⟨bound, free⟩ := recorded.tail_exact atTail label member
    exact ⟨bound, still_free bound (by omega) free⟩
  · intro record member
    rcases List.mem_cons.mp member with rfl | later
    · exact lastLt
    · exact recorded.branch_lt record (earlierMember record later)
  · intro record member
    rcases List.mem_cons.mp member with rfl | later
    · exact recorded.branch_slot last lastMember
    · exact recorded.branch_slot record (earlierMember record later)
  · intro record member label bound free
    obtain ⟨wasFree, notMember⟩ := free_of free
    rcases List.mem_cons.mp member with rfl | later
    · exact absurd (recorded.branch_complete last lastMember bound wasFree) notMember
    · exact recorded.branch_complete record (earlierMember record later) bound wasFree
  · intro record member label atBranch
    rcases List.mem_cons.mp member with rfl | later
    · simp at atBranch
    · obtain ⟨bound, free⟩ :=
        recorded.branch_exact record (earlierMember record later) label atBranch
      have away := order.1 record later
      exact ⟨bound, still_free bound (by omega) free⟩

/-- Appending a slot, and possibly a record for it. -/
theorem push {slot : Slot} {pending : String} {records : List BranchRec}
    (new : records = b.latestBranches ∨ ∃ branch, slot = .branch branch ∧
      b.labelsAtTailOff = b.slots.length ∧
      records = ⟨b.slots.length, b.labelsAtTail⟩ :: b.latestBranches) :
    Recorded
      { b with slots := b.slots ++ [slot], pending := pending, latestBranches := records } := by
  have old : ∀ {record : BranchRec}, record ∈ b.latestBranches →
      ∃ branch, (b.slots ++ [slot])[record.start]? = some (.branch branch) := by
    intro record member
    obtain ⟨branch, hbranch⟩ := recorded.branch_slot record member
    exact ⟨branch, by rw [List.getElem?_append_left (recorded.branch_lt record member), hbranch]⟩
  have member_cases : ∀ {record : BranchRec}, record ∈ records → record ∈ b.latestBranches ∨
      (∃ branch, slot = .branch branch) ∧ b.labelsAtTailOff = b.slots.length ∧
        record = ⟨b.slots.length, b.labelsAtTail⟩ := by
    intro record member
    rcases new with rfl | ⟨branch, isBranch, tailOff, rfl⟩
    · exact .inl member
    · rcases List.mem_cons.mp member with rfl | later
      · exact .inr ⟨⟨branch, isBranch⟩, tailOff, rfl⟩
      · exact .inl later
  refine
    { acyclic := recorded.acyclic
      offset_le := fun bound free =>
        Nat.le_trans (recorded.offset_le bound free) (by simp)
      aliased_bound := recorded.aliased_bound
      tailOff_le := Nat.le_trans recorded.tailOff_le (by simp)
      tail_complete := ?_, tail_exact := ?_, decreasing := ?_, branch_lt := ?_
      branch_slot := ?_, branch_complete := ?_, branch_exact := ?_ }
  · intro label bound free
    have := recorded.offset_le bound free
    simp only [List.length_append, List.length_singleton] at this
    omega
  · intro tailOff
    have := recorded.tailOff_le
    simp only [List.length_append, List.length_singleton] at tailOff
    omega
  · rcases new with rfl | ⟨branch, isBranch, tailOff, rfl⟩
    · exact recorded.decreasing
    · exact List.pairwise_cons.mpr ⟨fun record member => recorded.branch_lt record member,
        recorded.decreasing⟩
  · intro record member
    rcases member_cases member with later | ⟨-, -, rfl⟩
    · have := recorded.branch_lt record later
      simp only [List.length_append, List.length_singleton]
      omega
    · simp
  · intro record member
    rcases member_cases member with later | ⟨⟨branch, rfl⟩, -, rfl⟩
    · exact old later
    · exact ⟨branch, by simp⟩
  · intro record member label bound free
    rcases member_cases member with later | ⟨-, -, rfl⟩
    · exact recorded.branch_complete record later bound free
    · exact (recorded.tail_complete bound free).2
  · intro record member label atBranch
    rcases member_cases member with later | ⟨-, tailOff, rfl⟩
    · exact recorded.branch_exact record later label atBranch
    · exact recorded.tail_exact tailOff label atBranch

/-- Binding a label at the tail. -/
theorem bind {block : MirBlockIndex} (tailOff : b.labelsAtTailOff = b.slots.length)
    (fresh : b.labelOffsets block = none) :
    Recorded
      { b with
        labelOffsets := Function.update b.labelOffsets block (some b.slots.length)
        labelsAtTail := b.labelsAtTail ++ [block] } := by
  have free : b.labelAliases block = none := by
    cases hop : b.labelAliases block with
    | none => rfl
    | some target => exact absurd fresh (recorded.aliased_bound hop)
  have new_or_old : ∀ {label off},
      Function.update b.labelOffsets block (some b.slots.length) label = some off →
        label = block ∧ off = b.slots.length ∨ b.labelOffsets label = some off := by
    intro label off h
    by_cases same : label = block
    · subst same
      rw [Function.update_self] at h
      exact .inl ⟨rfl, (Option.some.inj h).symm⟩
    · rw [Function.update_of_ne same] at h
      exact .inr h
  have old_kept : ∀ {label off}, b.labelOffsets label = some off →
      Function.update b.labelOffsets block (some b.slots.length) label = some off := by
    intro label off h
    have : label ≠ block := by
      rintro rfl
      rw [fresh] at h
      cases h
    rwa [Function.update_of_ne this]
  refine
    { acyclic := recorded.acyclic, offset_le := ?_, aliased_bound := ?_
      tailOff_le := recorded.tailOff_le, tail_complete := ?_, tail_exact := ?_
      decreasing := recorded.decreasing, branch_lt := recorded.branch_lt
      branch_slot := recorded.branch_slot, branch_complete := ?_, branch_exact := ?_ }
  · intro label off h unaliased
    rcases new_or_old h with ⟨rfl, rfl⟩ | old
    · exact Nat.le_refl _
    · exact recorded.offset_le old unaliased
  · intro label target hop unbound
    cases old : b.labelOffsets label with
    | none => exact recorded.aliased_bound hop old
    | some off => simp [old_kept old] at unbound
  · intro label h unaliased
    refine ⟨tailOff, List.mem_append.mpr ?_⟩
    rcases new_or_old h with ⟨rfl, -⟩ | old
    · exact .inr (by simp)
    · exact .inl (recorded.tail_complete old unaliased).2
  · intro _ label member
    rcases List.mem_append.mp member with old | new
    · obtain ⟨h, unaliased⟩ := recorded.tail_exact tailOff label old
      exact ⟨old_kept h, unaliased⟩
    · obtain rfl := List.mem_singleton.mp new
      exact ⟨Function.update_self .., free⟩
  · intro record member label h unaliased
    rcases new_or_old h with ⟨rfl, here⟩ | old
    · have := recorded.branch_lt record member
      omega
    · exact recorded.branch_complete record member old unaliased
  · intro record member label atBranch
    obtain ⟨h, unaliased⟩ := recorded.branch_exact record member label atBranch
    exact ⟨old_kept h, unaliased⟩

/-- An edit binds and unbinds no label and leaves the pending text. -/
theorem edit_sameBound {t : EmitBuffer} (edit : EmitBuffer.Edit b t) : SameBound b t := by
  have exact := recorded.lazilyClear.tail_exact
  rw [lazilyClear_tailOff recorded.tailOff_le] at exact
  obtain ⟨tailLabels, off, equal, -⟩ := lazilyClear_spec b
  have moved : ∀ {last : BranchRec} {earlier : List BranchRec} {t : EmitBuffer},
      b.latestBranches = last :: earlier → b.truncateLastBranch = some t → SameBound b t := by
    intro last earlier t latest cut
    have whole := truncateLastBranch_eq latest cut
    rw [equal] at exact whole
    subst whole
    refine ⟨rfl, fun label => ?_⟩
    simp only [EmitBuffer.moveLabels]
    split
    · next tail =>
        have bound : b.labelOffsets label = some b.slots.length := (exact rfl label tail).1
        simp [bound]
    · rfl
  cases edit with
  | fallthrough latest _ _ _ _ cut => exact moved latest cut
  | thread => exact ⟨rfl, fun _ => Iff.rfl⟩
  | dead latest _ _ _ _ _ _ _ cut => exact moved latest cut
  | invert latest _ _ _ _ _ _ _ _ _ _ cut =>
    exact ⟨(moved latest cut).pending, (moved latest cut).unbound⟩

/-- Purging drops records and changes nothing else. -/
theorem purge : Recorded b.purgeLatestBranches := by
  have dropped : Recorded { b with latestBranches := [] } :=
    { recorded with
      decreasing := List.Pairwise.nil
      branch_lt := fun _ member => absurd member (by simp)
      branch_slot := fun _ member => absurd member (by simp)
      branch_complete := fun _ member => absurd member (by simp)
      branch_exact := fun _ member => absurd member (by simp) }
  unfold EmitBuffer.purgeLatestBranches
  split
  · exact recorded
  · split
    · exact dropped
    · exact recorded

end

end Recorded

namespace Tracks

variable {plain : EmitBuffer} {taken : Outcome} {emitted : Nat} {b t : EmitBuffer} {g : Nat → Nat}

variable {last : BranchRec} {earlier : List BranchRec}

section

variable (tracks : Tracks plain taken emitted b g)
include tracks

theorem lazilyClear : Tracks plain taken emitted b.lazilyClearLabelsAtTail g := by
  have recorded := tracks.recorded.lazilyClear
  obtain ⟨labels, off, equal, -⟩ := lazilyClear_spec b
  rw [equal] at recorded ⊢
  exact ⟨tracks.tail, tracks.entry, tracks.slot, tracks.aliased, tracks.bound, tracks.labels,
    recorded⟩

/-- Removing the last branch: its slot now stands at the end of what the plain
program has emitted.  The caller shows that the slots before it, the entry and
the labels bound at it agree with that. -/
theorem truncate (tailOff : b.labelsAtTailOff = b.slots.length)
    (slots : t.slots.length = last.start) (aliases : t.labelAliases = b.labelAliases)
    (names : t.blockLabels = b.blockLabels)
    (offsets : t.labelOffsets = EmitBuffer.moveLabels b.labelOffsets b.labelsAtTail last.start)
    (recorded : Recorded t)
    (slotTracks : ∀ {i slot}, t.slots[i]? = some slot →
      SlotTracks plain taken (g i) (Function.update g last.start emitted (i + 1)) slot)
    (entry : Flow plain taken 0 (Function.update g last.start emitted 0))
    (labels : ∀ {label}, b.labelOffsets label = some last.start →
      b.labelAliases label = none → Flow plain taken (g last.start) emitted) :
    Tracks plain taken emitted t (Function.update g last.start emitted) := by
  refine
    { tail := by rw [slots, Function.update_self]
      entry := entry, slot := ?_
      aliased := by rw [aliases]; exact tracks.aliased
      bound := ?_, labels := names.trans tracks.labels, recorded := recorded }
  · intro i slot hslot
    have lt : i < t.slots.length := (List.getElem?_eq_some_iff.mp hslot).1
    rw [Function.update_of_ne (by omega : i ≠ last.start)]
    exact slotTracks hslot
  · intro label off bound free
    rw [offsets, EmitBuffer.moveLabels] at bound
    rw [aliases] at free
    split at bound
    · next tail =>
        obtain rfl := Option.some.inj bound
        obtain ⟨p, hp, flow⟩ := tracks.bound (tracks.recorded.tail_exact tailOff label tail).1 free
        rw [tracks.tail] at flow
        exact ⟨p, hp, by rwa [Function.update_self]⟩
    · next notTail =>
        obtain ⟨p, hp, flow⟩ := tracks.bound bound free
        refine ⟨p, hp, ?_⟩
        by_cases here : off = last.start
        · subst here
          rw [Function.update_self]
          exact flow.trans (labels bound free)
        · rwa [Function.update_of_ne here]

/-- The general form of the three edits that remove the last branch: `slots`
are the slots before it, possibly with the one just before it replaced. -/
theorem cut (latest : b.latestBranches = last :: earlier) (cut : b.truncateLastBranch = some t)
    (slots : List Slot) (length : slots.length = last.start)
    (recorded : Recorded { t with slots := slots })
    (slotTracks : ∀ {i slot}, slots[i]? = some slot →
      SlotTracks plain taken (g i) (Function.update g last.start emitted (i + 1)) slot)
    (entry : Flow plain taken 0 (Function.update g last.start emitted 0))
    (labels : ∀ {label}, b.labelOffsets label = some last.start →
      b.labelAliases label = none → Flow plain taken (g last.start) emitted) :
    Tracks plain taken emitted { t with slots := slots }
      (Function.update g last.start emitted) := by
  have cleared := tracks.lazilyClear
  have tailOff := lazilyClear_tailOff tracks.recorded.tailOff_le
  have whole := truncateLastBranch_eq latest cut
  obtain ⟨tailLabels, off, equal, -⟩ := lazilyClear_spec b
  rw [equal] at cleared tailOff whole
  subst whole
  exact cleared.truncate tailOff length rfl rfl rfl recorded slotTracks entry labels

/-- When control flows from the removed branch to the tail, everything that led
to the branch now leads to the tail. -/
theorem cut_flow (latest : b.latestBranches = last :: earlier)
    (atTail : ¬ last.start + 1 < b.slots.length) (cut : b.truncateLastBranch = some t)
    (flow : Flow plain taken (g last.start) emitted) :
    Tracks plain taken emitted t (Function.update g last.start emitted) := by
  have slots : t.slots = b.slots.take last.start := by rw [truncateLastBranch_eq latest cut]
  have length := tracks.recorded.length_take latest
  have result := tracks.cut latest cut t.slots (by rw [slots]; exact length)
    (tracks.recorded.cut_take latest atTail cut) ?_ ?_ (fun _ _ => flow)
  · exact result
  · intro i slot hslot
    have lt : i < last.start := by
      have := (List.getElem?_eq_some_iff.mp hslot).1
      rwa [slots, length] at this
    rw [slots, List.getElem?_take_of_lt lt] at hslot
    have old := tracks.slot hslot
    by_cases next : i + 1 = last.start
    · rw [next, Function.update_self]
      rw [next] at old
      exact old.mono flow
    · rwa [Function.update_of_ne next]
  · by_cases zero : (0 : Nat) = last.start
    · rw [← zero] at flow ⊢
      rw [Function.update_self]
      exact tracks.entry.trans flow
    · rw [Function.update_of_ne zero]
      exact tracks.entry

/-- A branch whose target resolves to the tail goes to the tail either way. -/
theorem branch_to_tail {i : Nat} {branch : BranchRef} {target : MirBlockIndex}
    (slot : b.slots[i]? = some (.branch branch)) (last : i + 1 = b.slots.length)
    (block : branch.target = .block target)
    (offset : b.resolveLabelOffset target = some (some b.slots.length)) :
    Flow plain taken (g i) emitted := by
  obtain ⟨target', off, block', bound, paths⟩ := tracks.slot slot
  obtain rfl := LabelRef.block.inj (block.symm.trans block')
  obtain ⟨p, hp, flow⟩ := tracks.resolved_flow offset
  obtain rfl := Option.some.inj (bound.symm.trans hp)
  rw [tracks.tail] at flow
  rw [last, tracks.tail] at paths
  intro executed
  cases inv : branch.invPrefix with
  | none =>
    rw [inv] at paths
    exact (paths executed).silent.trans (flow executed)
  | some inverted =>
    rw [inv] at paths
    have path := (paths executed).2
    split at path
    · exact path.silent.trans (flow executed)
    · exact path.silent

section

variable
  (within : ∀ {label off}, plain.labelOffsets label = some off → label < plain.blockLabels.length)
include within

theorem edit (edit : EmitBuffer.Edit b t) : ∃ g', Tracks plain taken emitted t g' := by
  cases edit with
  | fallthrough latest atTail slot block offset cut =>
    exact ⟨_, tracks.cut_flow latest atTail cut
      (tracks.branch_to_tail slot (tracks.recorded.last_lt latest atTail) block offset)⟩
  | @thread last earlier branch target targetOff latest slot block unconditional offset
        elsewhere _ =>
      obtain ⟨target', off, block', bound, paths⟩ := tracks.slot slot
      obtain rfl := LabelRef.block.inj (block.symm.trans block')
      rw [unconditional] at paths
      refine ⟨g, tracks.tail, tracks.entry, tracks.slot, ?_, ?_, tracks.labels,
        tracks.recorded.thread latest offset elsewhere (tracks.labels ▸ within bound)⟩
      · intro label next hop
        simp only [EmitBuffer.threadLabels, EmitBuffer.aliasLabels] at hop
        split at hop
        · next member =>
            obtain rfl := Option.some.inj hop
            obtain ⟨here, free⟩ :=
              tracks.recorded.branch_exact last (by simp [latest]) label member
            obtain ⟨p, hp, flow⟩ := tracks.bound here free
            exact ⟨p, off, hp, bound, flow.trans fun executed => (paths executed).silent⟩
        · exact tracks.aliased hop
      · intro label o hbound free
        simp only [EmitBuffer.threadLabels, EmitBuffer.aliasLabels] at free
        split at free
        · cases free
        · exact tracks.bound hbound free
  | @dead last prev earlier branch prevBranch t latest atTail slot unconditional unlabelled
      prevSlot adjacent prevUnconditional cut =>
      have tailEq := tracks.recorded.last_lt latest atTail
      have slots : t.slots = b.slots.take last.start := by rw [truncateLastBranch_eq latest cut]
      have length := tracks.recorded.length_take latest
      refine ⟨_, tracks.cut latest cut t.slots (by rw [slots]; exact length)
        (tracks.recorded.cut_take latest atTail cut) ?_ ?_ ?_⟩
      · intro i slot hslot
        have lt : i < last.start := by
          have := (List.getElem?_eq_some_iff.mp hslot).1
          rw [slots, List.length_take] at this
          omega
        rw [slots, List.getElem?_take_of_lt lt] at hslot
        by_cases next : i + 1 = last.start
        · obtain rfl : i = prev.start := by omega
          obtain rfl := Option.some.inj (prevSlot.symm.trans hslot)
          exact (tracks.slot hslot).of_unconditional prevUnconditional
        · rw [Function.update_of_ne next]
          exact tracks.slot hslot
      · rw [Function.update_of_ne (by omega)]
        exact tracks.entry
      · intro label here free
        have := tracks.recorded.branch_complete last (by simp [latest]) here free
        simp [unlabelled] at this
  | @invert last prev earlier branch prevBranch target prevTarget inverted t latest atTail slot
      block unconditional unlabelled prevSlot adjacent prevConditional prevBlock prevOffset cut =>
      have tailEq := tracks.recorded.last_lt latest atTail
      have slots : t.slots = b.slots.take last.start := by rw [truncateLastBranch_eq latest cut]
      have length := tracks.recorded.length_take latest
      refine ⟨_, tracks.cut latest cut
        (t.slots.set prev.start (.branch (prevBranch.inverted inverted branch.target)))
        (by rw [slots, List.length_set]; exact length)
        (tracks.recorded.cut_set latest atTail cut prev.start _) ?_ ?_ ?_⟩
      · intro i newSlot hslot
        have lt : i < last.start := by
          have := (List.getElem?_eq_some_iff.mp hslot).1
          rw [slots, List.length_set, List.length_take] at this
          omega
        by_cases here : i = prev.start
        · -- the inverted branch: taken goes over the removed branch to its target,
          -- not taken goes to the target of the old branch, which is the tail
          subst here
          rw [slots, List.getElem?_set_self (by simp; omega)] at hslot
          obtain rfl := Option.some.inj hslot
          obtain ⟨target', off, block', bound, jump⟩ := tracks.slot slot
          rw [unconditional] at jump
          obtain ⟨prevTarget', prevOff, prevBlock', prevBound, paths⟩ := tracks.slot prevSlot
          obtain rfl := LabelRef.block.inj (prevBlock.symm.trans prevBlock')
          obtain ⟨p, hp, toTail⟩ := tracks.resolved_flow prevOffset
          obtain rfl := Option.some.inj (prevBound.symm.trans hp)
          rw [tracks.tail] at toTail
          rw [prevConditional] at paths
          refine ⟨target', off, block', bound, ?_⟩
          intro executed
          obtain ⟨complement, path⟩ := paths executed
          refine ⟨by simp [BranchRef.inverted, complement], ?_⟩
          rw [adjacent, Function.update_self]
          simp only [BranchRef.inverted, complement, Bool.not_eq_true']
          by_cases outcome : taken executed prevBranch.prefixText = true
          · rw [if_pos outcome] at path
            rw [if_neg (by simp [outcome])]
            exact path.trans_silent (toTail executed)
          · rw [if_neg outcome, adjacent] at path
            rw [if_pos (by simpa using outcome)]
            exact path.trans_silent (jump executed).silent
        · rw [List.getElem?_set_ne (Ne.symm here), slots, List.getElem?_take_of_lt lt] at hslot
          rw [Function.update_of_ne (by omega)]
          exact tracks.slot hslot
      · rw [Function.update_of_ne (by omega)]
        exact tracks.entry
      · intro label here free
        have := tracks.recorded.branch_complete last (by simp [latest]) here free
        simp [unlabelled] at this

/-- A recorded branch targets a block whose label resolves. -/
theorem branch_resolves (record : BranchRec) (member : record ∈ b.latestBranches) :
    ∃ branch target off, b.slots[record.start]? = some (.branch branch) ∧
      branch.target = .block target ∧ b.resolveLabelOffset target = some off := by
  obtain ⟨branch, slot⟩ := tracks.recorded.branch_slot record member
  obtain ⟨target, off, block, bound, -⟩ := tracks.slot slot
  obtain ⟨-, root, -, resolves⟩ := tracks.resolve_ne_none (within bound)
  exact ⟨branch, target, _, slot, block, resolves⟩

end

end

theorem truncateLastBranch_ne_none (latest : b.latestBranches = last :: earlier) :
    b.truncateLastBranch ≠ none := by
  unfold EmitBuffer.truncateLastBranch
  simp [EmitBuffer.lazilyClear_latestBranches, latest]

/-- The optimiser does not panic on a tracked buffer. -/
theorem optimizeTurn_ne_none (tracks : Tracks plain taken emitted b g)
    (within : ∀ {label off}, plain.labelOffsets label = some off →
      label < plain.blockLabels.length) : b.optimizeTurn ≠ none := by
  unfold EmitBuffer.optimizeTurn
  cases latest : b.latestBranches with
  | nil => simp
  | cons last earlier =>
    obtain ⟨branch, target, off, slot, block, resolves⟩ :=
      tracks.branch_resolves within last (by simp [latest])
    have cuts := truncateLastBranch_ne_none latest
    simp only [slot, block, resolves]
    split
    · simp
    split
    · simp
    split
    · simpa using cuts
    cases inv : branch.invPrefix with
    | some inverted => simp
    | none =>
      dsimp only
      split
      · simp
      split
      · cases earlier with
        | nil => simp
        | cons prev rest =>
          obtain ⟨prevBranch, prevTarget, prevOff, prevSlot, prevBlock, prevResolves⟩ :=
            tracks.branch_resolves within prev (by simp [latest])
          simp only [EmitBuffer.unconditionalTurn, prevSlot, prevBlock, prevResolves]
          split
          · cases prevInv : prevBranch.invPrefix with
            | none => simpa using cuts
            | some inverted =>
              dsimp only
              split
              · simpa using cuts
              · simp
          · simp
      · simp

section

variable (tracks : Tracks plain taken emitted b g)
include tracks

/-- The loop keeps the invariant and does not panic. -/
theorem optimizeLoop
    (within : ∀ {label off}, plain.labelOffsets label = some off → label < plain.blockLabels.length)
    (turns : Nat) :
    ∃ t g', EmitBuffer.optimizeLoop turns b = some t ∧ Tracks plain taken emitted t g' ∧
      SameBound b t := by
  induction turns generalizing b g with
  | zero => exact ⟨b, g, rfl, tracks, .refl b⟩
  | succ turns ih =>
    rw [EmitBuffer.optimizeLoop]
    cases turn : b.optimizeTurn with
    | none => exact absurd turn (tracks.optimizeTurn_ne_none within)
    | some result =>
      cases result with
      | leave => exact ⟨b, g, rfl, tracks, .refl b⟩
      | again next =>
        have step := EmitBuffer.optimizeTurn_edit turn
        obtain ⟨g', tracks'⟩ := tracks.edit within step
        obtain ⟨t, g'', equal, tracks'', same⟩ := ih tracks'
        exact ⟨t, g'', equal, tracks'', (tracks.recorded.edit_sameBound step).trans same⟩

theorem purge : Tracks plain taken emitted b.purgeLatestBranches g := by
  have recorded := tracks.recorded.purge
  obtain ⟨records, equal⟩ := purge_spec b
  rw [equal] at recorded ⊢
  exact { tracks with recorded := recorded }

/-- `optimizeBranches` keeps the invariant and does not panic. -/
theorem optimizeBranches
    (within : ∀ {label off}, plain.labelOffsets label = some off →
      label < plain.blockLabels.length) :
    ∃ t g', b.optimizeBranches = some t ∧ Tracks plain taken emitted t g' ∧ SameBound b t := by
  unfold EmitBuffer.optimizeBranches
  split
  · obtain ⟨t, g', equal, tracks', same⟩ := tracks.optimizeLoop within b.turnBound
    refine ⟨t.purgeLatestBranches, g', by rw [equal, Option.map_some], tracks'.purge, ?_⟩
    refine same.trans ?_
    unfold EmitBuffer.purgeLatestBranches
    split
    · exact .refl t
    · split
      · exact ⟨rfl, fun _ => Iff.rfl⟩
      · exact .refl t
  · obtain ⟨labels, off, equal, -⟩ := lazilyClear_spec b
    exact ⟨_, g, rfl, tracks.lazilyClear, by rw [equal]; exact ⟨rfl, fun _ => Iff.rfl⟩⟩

end

end Tracks

end AnonCompiler.Mir
