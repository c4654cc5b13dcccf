import AnonCompiler.Mir.BranchOptimization
import AnonCompiler.Mir.RelaxedLayout

/-!
# The buffers that emission gives

Every emission call, with branch optimisation or without, keeps the records of the buffer
exact, and keeps all targets, of branches and of aliases, among the targets of the calls.  So
at the end the label that is printed for a target is bound inside the buffer.
-/

set_option autoImplicit false

namespace AnonCompiler.Mir

open AnonCompiler.Lib

/-- What emission keeps: `named` are the labels that calls may target, and `seen` are those
bound so far. -/
structure Emitted (enabled : Bool) (named : MirBlockIndex → Prop) (seen : List MirBlockIndex)
    (b : EmitBuffer) : Prop where
  mode : b.enableBranchOpt = enabled
  recorded : Recorded b
  within : ∀ target, named target → target < b.blockLabels.length
  bound : ∀ label, b.labelOffsets label = none ↔ label ∉ seen
  branchTarget : ∀ slot ∈ b.slots, ∀ branch target, slot.blockBranch = some (branch, target) →
    named target
  aliasTarget : ∀ label target, b.labelAliases label = some target → named target
  unaliased : enabled = false → ∀ label, b.labelAliases label = none

namespace Emitted

variable {enabled : Bool} {named : MirBlockIndex → Prop} {seen : List MirBlockIndex}
  {b t : EmitBuffer}

theorem lazilyClear (emitted : Emitted enabled named seen b) :
    Emitted enabled named seen b.lazilyClearLabelsAtTail := by
  have recorded := emitted.recorded.lazilyClear
  obtain ⟨labels, off, equal, -⟩ := lazilyClear_spec b
  rw [equal] at recorded ⊢
  exact { emitted with recorded := recorded }

/-- The optimiser leaves the set of targets. -/
theorem edit (emitted : Emitted true named seen b) (edit : EmitBuffer.Edit b t) :
    Emitted true named seen t := by
  have same := emitted.recorded.edit_sameBound edit
  have bound : ∀ label, t.labelOffsets label = none ↔ label ∉ seen := fun label =>
    (same.unbound label).trans (emitted.bound label)
  cases edit with
  | fallthrough latest atTail _ _ _ cut | dead latest atTail _ _ _ _ _ _ cut =>
    have recorded := emitted.recorded.cut_take latest atTail cut
    have whole := truncateLastBranch_eq latest cut
    obtain ⟨labels, off, equal, -⟩ := lazilyClear_spec b
    rw [equal] at whole
    refine ⟨?_, recorded, ?_, bound, ?_, ?_, fun isFalse => by cases isFalse⟩
    · rw [whole]
      exact emitted.mode
    · rw [whole]
      exact emitted.within
    · intro slot member
      rw [whole] at member
      exact emitted.branchTarget slot (List.mem_of_mem_take member)
    · rw [whole]
      exact emitted.aliasTarget
  | @thread last earlier branch target targetOff latest slot block _ offset elsewhere _ =>
    have isNamed : named target := emitted.branchTarget _ (List.mem_of_getElem? slot) branch
      target (Slot.blockBranch_eq_some.mpr ⟨rfl, block⟩)
    refine ⟨emitted.mode,
      emitted.recorded.thread latest offset elsewhere (emitted.within target isNamed),
      emitted.within, bound, emitted.branchTarget, ?_, fun isFalse => by cases isFalse⟩
    intro label next hop
    change EmitBuffer.aliasLabels _ _ _ label = some next at hop
    rw [EmitBuffer.aliasLabels] at hop
    split at hop
    · obtain rfl := Option.some.inj hop
      exact isNamed
    · exact emitted.aliasTarget label next hop
  | @invert last prev earlier branch prevBranch target prevTarget inverted t latest atTail slot
      block _ _ _ _ _ _ _ cut =>
      have isNamed : named target := emitted.branchTarget _ (List.mem_of_getElem? slot) branch
        target (Slot.blockBranch_eq_some.mpr ⟨rfl, block⟩)
      have recorded := emitted.recorded.cut_set latest atTail cut prev.start
        (prevBranch.inverted inverted branch.target)
      have whole := truncateLastBranch_eq latest cut
      obtain ⟨labels, off, equal, -⟩ := lazilyClear_spec b
      rw [equal] at whole
      refine ⟨?_, recorded, ?_, bound, ?_, ?_, fun isFalse => by cases isFalse⟩
      · rw [whole]
        exact emitted.mode
      · rw [whole]
        exact emitted.within
      · intro newSlot member
        rcases List.mem_or_eq_of_mem_set member with old | rfl
        · rw [whole] at old
          exact emitted.branchTarget newSlot (List.mem_of_mem_take old)
        · intro branch' target' isBranch
          obtain ⟨same, toTarget⟩ := Slot.blockBranch_eq_some.mp isBranch
          cases same
          obtain rfl := LabelRef.block.inj (block.symm.trans toTarget)
          exact isNamed
      · rw [whole]
        exact emitted.aliasTarget

theorem optimizeLoop (emitted : Emitted true named seen b) (turns : Nat)
    (result : EmitBuffer.optimizeLoop turns b = some t) : Emitted true named seen t := by
  induction turns generalizing b with
  | zero =>
    obtain rfl := Option.some.inj result
    exact emitted
  | succ turns ih =>
    rw [EmitBuffer.optimizeLoop] at result
    split at result
    · cases result
    · obtain rfl := Option.some.inj result
      exact emitted
    · next again => exact ih (emitted.edit (EmitBuffer.optimizeTurn_edit again)) result

section

variable (emitted : Emitted enabled named seen b)
include emitted

theorem optimizeBranches (result : b.optimizeBranches = some t) : Emitted enabled named seen t := by
  unfold EmitBuffer.optimizeBranches at result
  split at result
  · next isEnabled =>
      obtain rfl : enabled = true := emitted.mode.symm.trans isEnabled
      obtain ⟨looped, isLooped, rfl⟩ := Option.map_eq_some_iff.mp result
      have kept := emitted.optimizeLoop _ isLooped
      have recorded := kept.recorded.purge
      obtain ⟨records, equal⟩ := purge_spec looped
      rw [equal] at recorded ⊢
      exact { kept with recorded := recorded }
  · obtain rfl := Option.some.inj result
    exact emitted.lazilyClear

/-- Appending a slot. -/
theorem push {slot : Slot} {pending : String} {records : List BranchRec}
    (new : records = b.latestBranches ∨ ∃ branch, slot = .branch branch ∧
      b.labelsAtTailOff = b.slots.length ∧
      records = ⟨b.slots.length, b.labelsAtTail⟩ :: b.latestBranches)
    (isNamed : ∀ branch target, slot.blockBranch = some (branch, target) → named target) :
    Emitted enabled named seen
      { b with slots := b.slots ++ [slot], pending := pending, latestBranches := records } where
  mode := emitted.mode
  recorded := emitted.recorded.push new
  within := emitted.within
  bound := emitted.bound
  branchTarget old member := by
    rcases List.mem_append.mp member with before | last
    · exact emitted.branchTarget old before
    · obtain rfl := List.mem_singleton.mp last
      exact isNamed
  aliasTarget := emitted.aliasTarget
  unaliased := emitted.unaliased

theorem putBranch (prefixText : String) (invPrefix : Option String) {target : MirBlockIndex}
    (kind : LabelKind) (isNamed : named target) :
    Emitted enabled named seen (b.putBranch prefixText invPrefix target kind) := by
  have cleared := emitted.lazilyClear
  have tailOff := lazilyClear_tailOff emitted.recorded.tailOff_le
  have slots : b.lazilyClearLabelsAtTail.slots = b.slots := by
    obtain ⟨labels, off, equal, -⟩ := lazilyClear_spec b
    rw [equal]
  apply cleared.push (.inr ⟨_, rfl, tailOff.trans (congrArg List.length slots.symm), rfl⟩)
  intro branch target' isBranch
  obtain ⟨same, toTarget⟩ := Slot.blockBranch_eq_some.mp isBranch
  cases same
  cases toTarget
  exact isNamed

theorem bindLabel {block : MirBlockIndex} (fresh : block ∉ seen)
    (result : b.bindLabel block = some t) : Emitted enabled named (block :: seen) t := by
  simp only [EmitBuffer.bindLabel, lazilyClear_offsets] at result
  have cleared := emitted.lazilyClear
  have tailOff := lazilyClear_tailOff emitted.recorded.tailOff_le
  obtain ⟨labels, off, equal, -⟩ := lazilyClear_spec b
  rw [equal] at cleared tailOff result
  have bound := cleared.recorded.bind tailOff ((cleared.bound block).mpr fresh)
  apply Emitted.optimizeBranches _ result
  refine ⟨cleared.mode, bound, cleared.within, ?_, cleared.branchTarget, cleared.aliasTarget,
    cleared.unaliased⟩
  intro label
  show Function.update b.labelOffsets block (some b.slots.length) label = none ↔ _
  by_cases same : label = block
  · simp [same]
  · rw [Function.update_of_ne same, emitted.bound]
    simp [same]

/-- One emission call. -/
theorem call {c : EmitCall} (isNamed : ∀ target, c.target = some target → named target)
    (fresh : ∀ label ∈ c.labels, label ∉ seen) (result : b.call c = some t) :
    Emitted enabled named (c.labels ++ seen) t := by
  cases c with
  | bindLabel block => exact emitted.bindLabel (fresh block List.mem_cons_self) result
  | writeStr text =>
    obtain rfl := Option.some.inj result
    exact { emitted with recorded := { emitted.recorded with } }
  | endInst =>
    obtain rfl := Option.some.inj result
    show Emitted enabled named seen b.endInst
    unfold EmitBuffer.endInst
    split
    · exact emitted
    · exact emitted.push (.inl rfl) fun branch target absurd => by cases absurd
  | putBranch prefixText inverted target kind =>
    obtain rfl := Option.some.inj result
    exact emitted.putBranch prefixText (some inverted) kind (isNamed target rfl)
  | putUncondBranch prefixText target kind =>
    obtain rfl := Option.some.inj result
    exact emitted.putBranch prefixText none kind (isNamed target rfl)

end

theorem calls {sequence : List EmitCall} (emitted : Emitted enabled named seen b)
    (isNamed : ∀ c ∈ sequence, ∀ target, c.target = some target → named target)
    (once : (boundLabels sequence).Nodup) (fresh : ∀ label ∈ boundLabels sequence, label ∉ seen)
    (result : b.calls sequence = some t) :
    ∃ seen', Emitted enabled named seen' t ∧
      ∀ label, label ∈ seen' ↔ label ∈ boundLabels sequence ∨ label ∈ seen := by
  induction sequence generalizing b seen with
  | nil =>
    obtain rfl := Option.some.inj result
    exact ⟨seen, emitted, fun label => by simp [boundLabels]⟩
  | cons first rest ih =>
    obtain ⟨next, isNext, later⟩ := Option.bind_eq_some_iff.mp result
    simp only [boundLabels, List.flatMap_cons, List.nodup_append, List.mem_append] at once fresh
    have stepped := emitted.call (isNamed first List.mem_cons_self)
      (fun label member => fresh label (.inl member)) isNext
    obtain ⟨seen', last, isSeen⟩ := ih stepped
      (fun c member => isNamed c (List.mem_cons_of_mem _ member)) once.2.1 (by
        intro label member inSeen
        rcases List.mem_append.mp inSeen with inFirst | before
        · exact once.2.2 label inFirst label member rfl
        · exact fresh label (.inr member) before) later
    refine ⟨seen', last, fun label => ?_⟩
    rw [isSeen, List.mem_append]
    simp only [boundLabels, List.flatMap_cons, List.mem_append]
    exact ⟨fun h => by tauto, fun h => by tauto⟩

theorem new (blockLabels : List String) (enabled : Bool)
    (within : ∀ target, named target → target < blockLabels.length) :
    Emitted enabled named [] (.new blockLabels enabled) where
  mode := rfl
  recorded := Recorded.new blockLabels enabled
  within := within
  bound := by simp [EmitBuffer.new]
  branchTarget := by simp [EmitBuffer.new]
  aliasTarget := by simp [EmitBuffer.new]
  unaliased _ _ := rfl

end Emitted

/-! ## Finished buffers -/

/-- The calls of one function: every label is bound once and is one of the function's blocks,
and every branch targets a label that is bound sooner or later. -/
structure CallsBound (blockLabels : List String) (sequence : List EmitCall) : Prop where
  once : (boundLabels sequence).Nodup
  inRange : ∀ label ∈ boundLabels sequence, label < blockLabels.length
  bound : ∀ c ∈ sequence, ∀ target, c.target = some target → target ∈ boundLabels sequence

/-- The target of every branch is bound, and the label printed for it is bound in the buffer. -/
structure Finished (b : EmitBuffer) : Prop where
  own : ∀ k branch target, b.blockBranch k = some (branch, target) →
    ∃ off, b.labelOffsets target = some off
  printed : ∀ k branch target, b.blockBranch k = some (branch, target) →
    ∃ root off, b.resolved target = some root ∧ root < b.blockLabels.length ∧
      b.labelOffsets root = some off ∧ off ≤ b.slots.length

section Emit

variable {blockLabels : List String} {enabled : Bool} {sequence : List EmitCall} {b : EmitBuffer}

theorem emitted_of_emit (calls : CallsBound blockLabels sequence)
    (result : EmitBuffer.emit blockLabels enabled sequence = some b) :
    ∃ seen, Emitted enabled (· ∈ boundLabels sequence) seen b ∧
      ∀ label, label ∈ seen ↔ label ∈ boundLabels sequence := by
  obtain ⟨last, isLast, optimized⟩ := Option.bind_eq_some_iff.mp result
  have start : Emitted enabled (· ∈ boundLabels sequence) [] (.new blockLabels enabled) :=
    Emitted.new blockLabels enabled calls.inRange
  obtain ⟨seen, emitted, isSeen⟩ :=
    start.calls calls.bound calls.once (fun _ _ => List.not_mem_nil) isLast
  refine ⟨seen, emitted.optimizeBranches optimized, fun label => ?_⟩
  rw [isSeen]
  simp

section

variable {named : MirBlockIndex → Prop} {seen : List MirBlockIndex}
  (emitted : Emitted enabled named seen b)
include emitted

theorem named_of_blockBranch {k : Nat} {branch : BranchRef} {target : MirBlockIndex}
    (isBranch : b.blockBranch k = some (branch, target)) : named target := by
  obtain ⟨slot, isSlot, isBlock⟩ := Option.bind_eq_some_iff.mp isBranch
  exact emitted.branchTarget slot (List.mem_of_getElem? isSlot) branch target isBlock

theorem root_named {label root : MirBlockIndex} {path : List MirBlockIndex}
    (chain : AliasPath b.labelAliases label path root) (isNamed : named label) : named root := by
  induction chain with
  | root _ => exact isNamed
  | next hop _ ih => exact ih (emitted.aliasTarget _ _ hop)

end

theorem finished_of_emit (calls : CallsBound blockLabels sequence)
    (result : EmitBuffer.emit blockLabels enabled sequence = some b) : Finished b := by
  obtain ⟨seen, emitted, isSeen⟩ := emitted_of_emit calls result
  have bound : ∀ label, label ∈ boundLabels sequence → ∃ off, b.labelOffsets label = some off := by
    intro label member
    apply Option.ne_none_iff_exists'.mp
    rw [Ne, emitted.bound, not_not, isSeen]
    exact member
  constructor
  · intro k branch target isBranch
    exact bound target (named_of_blockBranch emitted isBranch)
  · intro k branch target isBranch
    have isNamed := named_of_blockBranch emitted isBranch
    obtain ⟨path, root, chain⟩ := emitted.recorded.acyclic.chain target (emitted.within _ isNamed)
    have rootNamed := root_named emitted chain isNamed
    obtain ⟨off, isOff⟩ := bound root rootNamed
    exact ⟨root, off, emitted.recorded.acyclic.aliasRoot_eq chain (emitted.within _ isNamed),
      emitted.within _ rootNamed, isOff, emitted.recorded.offset_le isOff chain.root_free⟩

theorem Finished.named (finished : Finished b) : LaysOut.Named b := by
  intro k branch target isBranch
  obtain ⟨root, _, isRoot, inside, _⟩ := finished.printed k branch target isBranch
  refine ⟨b.blockLabels[root], ?_⟩
  rw [EmitBuffer.blockName, isRoot]
  simp only [List.getElem?_eq_getElem inside]

/-- Without branch optimisation a label is printed where it is bound. -/
theorem plain_inside (calls : CallsBound blockLabels sequence)
    (result : EmitBuffer.emit blockLabels false sequence = some b) : LaysOut.Inside b := by
  obtain ⟨seen, emitted, _⟩ := emitted_of_emit calls result
  intro k branch target isBranch
  obtain ⟨root, off, isRoot, _, isOff, inside⟩ :=
    (finished_of_emit calls result).printed k branch target isBranch
  have isTarget : b.resolved target = some target := by
    simp [EmitBuffer.resolved, aliasRoot, emitted.unaliased rfl]
  obtain rfl := Option.some.inj (isTarget.symm.trans isRoot)
  exact ⟨off, isOff, inside⟩

end Emit

end AnonCompiler.Mir
