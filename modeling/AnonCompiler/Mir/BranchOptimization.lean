import AnonCompiler.Mir.BranchTracking

/-!
# Branch optimisation preserves control flow

Every emission call keeps the invariant `Tracks` between the optimised buffer
and the finished plain program, so the finished optimised program is simulated
by the plain one: from slot 0 and from every bound label both run through the
same sequences of texts, and stop after the same ones.
-/

set_option autoImplicit false

namespace AnonCompiler.Mir

open Lib Lib.Machine

namespace Tracks

variable {plain : EmitBuffer} {taken : Outcome} {emitted : Nat} {b t : EmitBuffer} {g : Nat → Nat}

/-! ## Emission calls -/

/-- Appending a slot, and possibly a record for it. -/
theorem push (tracks : Tracks plain taken emitted b g) {slot : Slot} {pending : String}
    {records : List BranchRec}
    (slotTracks : SlotTracks plain taken emitted (emitted + 1) slot)
    (new : records = b.latestBranches ∨ ∃ branch, slot = .branch branch ∧
      b.labelsAtTailOff = b.slots.length ∧
        records = ⟨b.slots.length, b.labelsAtTail⟩ :: b.latestBranches) :
    Tracks plain taken (emitted + 1)
      { b with slots := b.slots ++ [slot], pending := pending, latestBranches := records }
      (Function.update g (b.slots.length + 1) (emitted + 1)) := by
  refine
    { tail := by simp [Function.update_self]
      entry := ?_, slot := ?_, aliased := tracks.aliased, bound := ?_, labels := tracks.labels
      recorded := tracks.recorded.push new }
  · rw [Function.update_of_ne (by omega)]
    exact tracks.entry
  · intro i s hslot
    have lt := (List.getElem?_eq_some_iff.mp hslot).1
    simp only [List.length_append, List.length_singleton] at lt
    rw [Function.update_of_ne (by omega)]
    by_cases here : i = b.slots.length
    · subst here
      rw [List.getElem?_concat_length] at hslot
      obtain rfl := Option.some.inj hslot
      rw [Function.update_self, tracks.tail]
      exact slotTracks
    · rw [List.getElem?_append_left (by omega)] at hslot
      rw [Function.update_of_ne (by omega)]
      exact tracks.slot hslot
  · intro label off bound free
    obtain ⟨p, hp, flow⟩ := tracks.bound bound free
    have le := tracks.recorded.offset_le bound free
    exact ⟨p, hp, by rwa [Function.update_of_ne (by omega)]⟩

/-- Binding a label at the tail. -/
theorem bind (tracks : Tracks plain taken emitted b g) {block : MirBlockIndex}
    (tailOff : b.labelsAtTailOff = b.slots.length) (fresh : b.labelOffsets block = none)
    (bound : plain.labelOffsets block = some emitted) :
    Tracks plain taken emitted
      { b with
        labelOffsets := Function.update b.labelOffsets block (some b.slots.length)
        labelsAtTail := b.labelsAtTail ++ [block] } g := by
  refine
    { tail := tracks.tail, entry := tracks.entry, slot := tracks.slot
      aliased := tracks.aliased, bound := ?_, labels := tracks.labels
      recorded := tracks.recorded.bind tailOff fresh }
  intro label off h unaliased
  change Function.update b.labelOffsets block (some b.slots.length) label = some off at h
  by_cases same : label = block
  · rw [same, Function.update_self] at h
    obtain rfl := Option.some.inj h
    exact ⟨emitted, same ▸ bound, by rw [tracks.tail]; exact .refl _⟩
  · rw [Function.update_of_ne same] at h
    exact tracks.bound h unaliased

end Tracks

/-! ## The plain buffer -/

/-- The slots a call appends, given the pending text. -/
def EmitCall.slots (pending : String) : EmitCall → List Slot
  | .endInst => if pending = "" then [] else [.text pending]
  | .putBranch prefixText inverted target kind =>
    [.branch ⟨prefixText, some inverted, .block target, kind⟩]
  | .putUncondBranch prefixText target kind => [.branch ⟨prefixText, none, .block target, kind⟩]
  | _ => []

/-- The pending text after a call. -/
def EmitCall.pending (pending : String) : EmitCall → String
  | .writeStr text => pending ++ text
  | .endInst => ""
  | _ => pending

/-- The label a call binds. -/
def EmitCall.labels : EmitCall → List MirBlockIndex
  | .bindLabel block => [block]
  | _ => []

/-- The label offsets after a call that is made with `length` slots present. -/
def EmitCall.offsets (offsets : MirBlockIndex → Option Nat) (length : Nat) (c : EmitCall) :
    MirBlockIndex → Option Nat :=
  fun label => if label ∈ c.labels then some length else offsets label

/-- The label a branch call targets. -/
def EmitCall.target : EmitCall → Option MirBlockIndex
  | .putBranch _ _ target _ => some target
  | .putUncondBranch _ target _ => some target
  | _ => none

/-- A buffer that performs no branch optimisation. -/
structure Plain (p : EmitBuffer) : Prop where
  disabled : p.enableBranchOpt = false
  unaliased : p.labelAliases = fun _ => none

/-- Everything in `p` is still there, at the same place, in `q`. -/
structure Extends (p q : EmitBuffer) : Prop where
  slots : p.slots <+: q.slots
  offsets : ∀ {label off}, p.labelOffsets label = some off → q.labelOffsets label = some off
  names : q.blockLabels = p.blockLabels

theorem Extends.refl (p : EmitBuffer) : Extends p p := ⟨List.prefix_rfl, id, rfl⟩

theorem Extends.trans {p q r : EmitBuffer} (first : Extends p q) (second : Extends q r) :
    Extends p r :=
  ⟨first.slots.trans second.slots, fun h => second.offsets (first.offsets h),
    second.names.trans first.names⟩

/-- Clearing the tail labels does not look at the label offsets. -/
theorem lazilyClear_offsets (b : EmitBuffer) (offsets : MirBlockIndex → Option Nat) :
    { b with labelOffsets := offsets }.lazilyClearLabelsAtTail =
      { b.lazilyClearLabelsAtTail with labelOffsets := offsets } := by
  unfold EmitBuffer.lazilyClearLabelsAtTail
  split <;> rfl

namespace Plain

variable {p q : EmitBuffer}

theorem lazilyClear (plain : Plain p) : Plain p.lazilyClearLabelsAtTail := by
  obtain ⟨labels, off, equal, -⟩ := lazilyClear_spec p
  rw [equal]
  exact ⟨plain.disabled, plain.unaliased⟩

theorem optimizeBranches (plain : Plain p) :
    p.optimizeBranches = some p.lazilyClearLabelsAtTail := by
  simp [EmitBuffer.optimizeBranches, plain.disabled]

/-- Without branch optimisation a call appends its slots and binds its label. -/
theorem call (plain : Plain p) (c : EmitCall) :
    ∃ q, p.call c = some q ∧ Plain q ∧ q.blockLabels = p.blockLabels ∧
      q.slots = p.slots ++ c.slots p.pending ∧ q.pending = c.pending p.pending ∧
      q.labelOffsets = c.offsets p.labelOffsets p.slots.length := by
  cases c with
  | bindLabel block =>
    have offsets : Function.update p.labelOffsets block (some p.slots.length) =
        (EmitCall.bindLabel block).offsets p.labelOffsets p.slots.length := by
      funext label
      simp [EmitCall.offsets, EmitCall.labels, Function.update_apply]
    simp only [EmitBuffer.call, EmitBuffer.bindLabel, lazilyClear_offsets, offsets]
    obtain ⟨labels, off, equal, -⟩ := lazilyClear_spec p
    rw [equal]
    obtain ⟨labels', off', equal', -⟩ := lazilyClear_spec
      { p with
        labelOffsets := (EmitCall.bindLabel block).offsets p.labelOffsets p.slots.length
        labelsAtTail := labels ++ [block], labelsAtTailOff := off }
    refine ⟨_, Plain.optimizeBranches ⟨plain.disabled, plain.unaliased⟩, ?_⟩
    rw [equal']
    exact ⟨⟨plain.disabled, plain.unaliased⟩, rfl, by simp [EmitCall.slots], rfl, rfl⟩
  | writeStr text =>
    exact ⟨_, rfl, ⟨plain.disabled, plain.unaliased⟩, rfl,
      by simp [EmitBuffer.writeStr, EmitCall.slots], rfl,
      by funext label; simp [EmitBuffer.writeStr, EmitCall.offsets, EmitCall.labels]⟩
  | endInst =>
    refine ⟨_, rfl, ?_⟩
    simp only [EmitBuffer.endInst, EmitCall.slots, EmitCall.pending]
    have offsets : p.labelOffsets = EmitCall.endInst.offsets p.labelOffsets p.slots.length := by
      funext label
      simp [EmitCall.offsets, EmitCall.labels]
    split
    · next empty => exact ⟨plain, rfl, by simp, empty, offsets⟩
    · exact ⟨⟨plain.disabled, plain.unaliased⟩, rfl, rfl, rfl, offsets⟩
  | putBranch prefixText inverted target kind | putUncondBranch prefixText target kind =>
    refine ⟨_, rfl, ?_⟩
    simp only [EmitBuffer.putUncondBranch, EmitBuffer.putBranch, EmitCall.slots, EmitCall.pending]
    obtain ⟨labels, off, equal, -⟩ := lazilyClear_spec p
    rw [equal]
    exact ⟨⟨plain.disabled, plain.unaliased⟩, rfl, rfl, rfl,
      by funext label; simp [EmitCall.offsets, EmitCall.labels]⟩

/-- A call that binds a fresh label keeps what is there. -/
theorem call_extends (plain : Plain p) {c : EmitCall} (step : p.call c = some q)
    (fresh : ∀ label ∈ c.labels, p.labelOffsets label = none) : Extends p q := by
  obtain ⟨q', step', -, names, slots, -, offsets⟩ := plain.call c
  obtain rfl := Option.some.inj (step.symm.trans step')
  refine ⟨slots ▸ List.prefix_append _ _, fun {label off} bound => ?_, names⟩
  have : label ∉ c.labels := fun member => by simp [fresh label member] at bound
  rw [offsets, EmitCall.offsets, if_neg this, bound]

end Plain

/-- The labels bound by a sequence of calls. -/
def boundLabels (sequence : List EmitCall) : List MirBlockIndex := sequence.flatMap EmitCall.labels

/-- Without branch optimisation the calls do not panic, they keep what was
emitted before, and they bind exactly their labels. -/
theorem Plain.calls {sequence : List EmitCall} {p : EmitBuffer} (plain : Plain p)
    (once : (boundLabels sequence).Nodup)
    (fresh : ∀ label ∈ boundLabels sequence, p.labelOffsets label = none) :
    ∃ q, p.calls sequence = some q ∧ Plain q ∧ Extends p q ∧
      ∀ label, q.labelOffsets label = none ↔
        p.labelOffsets label = none ∧ label ∉ boundLabels sequence := by
  induction sequence generalizing p with
  | nil => exact ⟨p, rfl, plain, .refl p, fun label => by simp [boundLabels]⟩
  | cons first rest ih =>
    simp only [boundLabels, List.flatMap_cons, List.nodup_append, List.mem_append] at once fresh
    obtain ⟨q, step, plain', -, -, -, offsets⟩ := plain.call first
    have extension := plain.call_extends step fun label member => fresh label (.inl member)
    have later : ∀ label ∈ boundLabels rest, q.labelOffsets label = none := by
      intro label member
      have notFirst : label ∉ first.labels :=
        fun member' => once.2.2 label member' label member rfl
      rw [offsets, EmitCall.offsets, if_neg notFirst]
      exact fresh label (.inr member)
    obtain ⟨r, steps, plain'', extension', bound⟩ := ih plain' once.2.1 later
    refine ⟨r, by simp [EmitBuffer.calls, step, steps], plain'', extension.trans extension', ?_⟩
    intro label
    rw [bound, offsets, EmitCall.offsets]
    simp only [boundLabels, List.flatMap_cons, List.mem_append]
    split <;> simp [*]

/-! ## What the plain program does at a slot -/

section PlainSteps

variable {plain : EmitBuffer} {taken : Outcome} {at' off : Nat}

theorem Plain.resolveLabelOffset_eq (isPlain : Plain plain) (label : MirBlockIndex) :
    plain.resolveLabelOffset label = some (plain.labelOffsets label) := by
  simp [EmitBuffer.resolveLabelOffset, EmitBuffer.resolved, aliasRoot, isPlain.unaliased]

/-- A text slot of the plain program tracks itself. -/
theorem slotTracks_text {text : String} (slot : plain.slots[at']? = some (.text text)) :
    SlotTracks plain taken at' (at' + 1) (.text text) := ⟨slot, .refl _⟩

/-- A branch slot of the plain program tracks itself. -/
theorem slotTracks_branch (isPlain : Plain plain) {prefixText : String}
    {invPrefix : Option String} {target : MirBlockIndex} {kind : LabelKind}
    (slot : plain.slots[at']? = some (.branch ⟨prefixText, invPrefix, .block target, kind⟩))
    (bound : plain.labelOffsets target = some off)
    (complementary : ∀ inverted, invPrefix = some inverted → ∀ executed,
      taken executed inverted = !taken executed prefixText) :
    SlotTracks plain taken at' (at' + 1)
      (.branch ⟨prefixText, invPrefix, .block target, kind⟩) := by
  refine ⟨target, off, rfl, bound, ?_⟩
  have resolves := isPlain.resolveLabelOffset_eq target
  rw [bound] at resolves
  cases invPrefix with
  | none =>
    intro executed
    refine .single ?_ rfl
    simp [slotMachine, slotStep, slot, resolves]
  | some inverted =>
    intro executed
    refine ⟨complementary inverted rfl executed, .single ?_ rfl⟩
    by_cases outcome : taken executed prefixText = true
    · simp [slotMachine, slotStep, slot, resolves, outcome]
    · simp [slotMachine, slotStep, slot, outcome]

end PlainSteps

/-! ## The invariant along the emission -/

/-- What a call has to bring along: its branch targets a label the finished
program binds, and its inverted condition is the complement. -/
structure CallFits (plain : EmitBuffer) (taken : Outcome) (c : EmitCall) : Prop where
  target : ∀ {label}, c.target = some label → plain.labelOffsets label ≠ none
  complementary : ∀ {prefixText inverted : String} {target : MirBlockIndex} {kind : LabelKind},
    c = .putBranch prefixText inverted target kind → ∀ executed,
      taken executed inverted = !taken executed prefixText

namespace Tracks

variable {plain : EmitBuffer} {taken : Outcome} {emitted : Nat} {b p q : EmitBuffer}
  {g : Nat → Nat}

/-- The pending text is of no concern to the invariant. -/
theorem withPending (tracks : Tracks plain taken emitted b g) (pending : String) :
    Tracks plain taken emitted { b with pending := pending } g :=
  { tracks with recorded := { tracks.recorded with } }

/-- Appending a branch. -/
theorem putBranch (tracks : Tracks plain taken emitted b g) (isPlain : Plain plain)
    {prefixText : String} {invPrefix : Option String} {target : MirBlockIndex} {kind : LabelKind}
    (slot : plain.slots[emitted]? = some (.branch ⟨prefixText, invPrefix, .block target, kind⟩))
    (bound : plain.labelOffsets target ≠ none)
    (complementary : ∀ inverted, invPrefix = some inverted → ∀ executed,
      taken executed inverted = !taken executed prefixText) :
    Tracks plain taken (emitted + 1) (b.putBranch prefixText invPrefix target kind)
      (Function.update g (b.slots.length + 1) (emitted + 1)) := by
  obtain ⟨off, bound⟩ := Option.ne_none_iff_exists'.mp bound
  have cleared := tracks.lazilyClear
  have tailOff := lazilyClear_tailOff tracks.recorded.tailOff_le
  have slots : b.lazilyClearLabelsAtTail.slots = b.slots := by
    obtain ⟨labels, off, equal, -⟩ := lazilyClear_spec b
    rw [equal]
  rw [← slots] at tailOff ⊢
  exact cleared.push (slotTracks_branch isPlain slot bound complementary)
    (.inr ⟨_, rfl, tailOff, rfl⟩)

theorem putBranch_sameBound (b : EmitBuffer) (prefixText : String) (invPrefix : Option String)
    (target : MirBlockIndex) (kind : LabelKind) :
    SameBound b (b.putBranch prefixText invPrefix target kind) := by
  obtain ⟨labels, off, equal, -⟩ := lazilyClear_spec b
  simp only [EmitBuffer.putBranch]
  rw [equal]
  exact ⟨rfl, fun _ => Iff.rfl⟩

/-- One emission call keeps the invariant and does not panic. -/
theorem call (tracks : Tracks plain taken p.slots.length b g) (same : SameBound p b)
    (isPlain : Plain plain) (pPlain : Plain p)
    (within : ∀ {label off}, plain.labelOffsets label = some off → label < plain.blockLabels.length)
    {c : EmitCall} (fits : CallFits plain taken c)
    (fresh : ∀ label ∈ c.labels, p.labelOffsets label = none)
    (step : p.call c = some q) (inside : Extends q plain) :
    ∃ t g', b.call c = some t ∧ Tracks plain taken q.slots.length t g' ∧ SameBound q t := by
  obtain ⟨q', step', -, -, slots, pending, offsets⟩ := pPlain.call c
  obtain rfl := Option.some.inj (step.symm.trans step')
  have placed : ∀ {slot}, c.slots p.pending = [slot] →
      plain.slots[p.slots.length]? = some slot ∧ q.slots.length = p.slots.length + 1 := by
    intro slot one
    rw [one] at slots
    obtain ⟨rest, whole⟩ := inside.slots
    refine ⟨?_, by simp [slots]⟩
    rw [← whole, slots]
    simp
  have sameBound : ∀ {t : EmitBuffer}, c.labels = [] → t.pending = c.pending p.pending →
      (∀ label, t.labelOffsets label = none ↔ b.labelOffsets label = none) → SameBound q t := by
    intro t none samePending unbound
    refine ⟨samePending.trans pending.symm, fun label => ?_⟩
    rw [unbound, same.unbound, offsets]
    simp [EmitCall.offsets, none]
  cases c with
  | bindLabel block =>
    have length : q.slots.length = p.slots.length := by simp [slots, EmitCall.slots]
    have freshHere : b.lazilyClearLabelsAtTail.labelOffsets block = none := by
      obtain ⟨labels, off, equal, -⟩ := lazilyClear_spec b
      rw [equal]
      exact (same.unbound block).mpr (fresh block (by simp [EmitCall.labels]))
    have clearedSame : SameBound b b.lazilyClearLabelsAtTail := by
      obtain ⟨labels, off, equal, -⟩ := lazilyClear_spec b
      rw [equal]
      exact ⟨rfl, fun _ => Iff.rfl⟩
    have clearedSlots : b.lazilyClearLabelsAtTail.slots = b.slots := by
      obtain ⟨labels, off, equal, -⟩ := lazilyClear_spec b
      rw [equal]
    have clearedOffsets : b.lazilyClearLabelsAtTail.labelOffsets = b.labelOffsets := by
      obtain ⟨labels, off, equal, -⟩ := lazilyClear_spec b
      rw [equal]
    have bound : plain.labelOffsets block = some p.slots.length :=
      inside.offsets (by rw [offsets]; simp [EmitCall.offsets, EmitCall.labels])
    have tracks' := tracks.lazilyClear.bind
      (clearedSlots ▸ lazilyClear_tailOff tracks.recorded.tailOff_le) freshHere bound
    obtain ⟨t, g', result, tracks'', same'⟩ := tracks'.optimizeBranches within
    refine ⟨t, g', ?_, length ▸ tracks'', ?_⟩
    · simp only [EmitBuffer.call, EmitBuffer.bindLabel, lazilyClear_offsets]
      rw [← result, clearedSlots, clearedOffsets]
    · refine ⟨same'.pending.trans (clearedSame.pending.trans (same.pending.trans pending.symm)),
        fun label => (same'.unbound label).trans ?_⟩
      rw [offsets]
      by_cases here : label = block
      · simp [here, EmitCall.offsets, EmitCall.labels]
      · simp only [Function.update_of_ne here, EmitCall.offsets, EmitCall.labels,
          List.mem_singleton, here, if_false]
        rw [clearedOffsets, same.unbound]
  | writeStr text =>
    have length : q.slots.length = p.slots.length := by simp [slots, EmitCall.slots]
    exact ⟨_, g, rfl, length ▸ tracks.withPending _,
      sameBound rfl (by simp [EmitBuffer.writeStr, EmitCall.pending, same.pending])
        fun _ => Iff.rfl⟩
  | endInst =>
    by_cases empty : b.pending = ""
    · have length : q.slots.length = p.slots.length := by
        simp [slots, EmitCall.slots, ← same.pending, empty]
      refine ⟨b, g, by simp [EmitBuffer.call, EmitBuffer.endInst, empty], length ▸ tracks,
        sameBound rfl (by simp [EmitCall.pending, empty]) fun _ => Iff.rfl⟩
    · have one : EmitCall.endInst.slots p.pending = [.text b.pending] := by
        simp [EmitCall.slots, ← same.pending, empty]
      obtain ⟨slot, length⟩ := placed one
      have flushed : b.call .endInst =
          some { b with pending := "", slots := b.slots ++ [.text b.pending] } := by
        simp [EmitBuffer.call, EmitBuffer.endInst, empty]
      exact ⟨_, _, flushed, length ▸ tracks.push (slotTracks_text slot) (.inl rfl),
        sameBound rfl rfl fun _ => Iff.rfl⟩
  | putBranch prefixText inverted target kind =>
    obtain ⟨slot, length⟩ := placed rfl
    have same' := putBranch_sameBound b prefixText (some inverted) target kind
    refine ⟨_, _, rfl, length ▸ tracks.putBranch isPlain slot (fits.target rfl) ?_,
      sameBound rfl (same'.pending.trans same.pending) same'.unbound⟩
    rintro _ ⟨⟩ executed
    exact fits.complementary rfl executed
  | putUncondBranch prefixText target kind =>
    obtain ⟨slot, length⟩ := placed rfl
    have same' := putBranch_sameBound b prefixText none target kind
    refine ⟨_, _, rfl, length ▸ tracks.putBranch isPlain slot (fits.target rfl) ?_,
      sameBound rfl (same'.pending.trans same.pending) same'.unbound⟩
    rintro _ ⟨⟩

/-- All calls keep the invariant and do not panic. -/
theorem calls {sequence : List EmitCall} (tracks : Tracks plain taken p.slots.length b g)
    (same : SameBound p b) (isPlain : Plain plain) (pPlain : Plain p)
    (within : ∀ {label off}, plain.labelOffsets label = some off → label < plain.blockLabels.length)
    (fits : ∀ c ∈ sequence, CallFits plain taken c) (once : (boundLabels sequence).Nodup)
    (fresh : ∀ label ∈ boundLabels sequence, p.labelOffsets label = none)
    (steps : p.calls sequence = some q) (inside : Extends q plain) :
    ∃ t g', b.calls sequence = some t ∧ Tracks plain taken q.slots.length t g' ∧
      SameBound q t := by
  induction sequence generalizing p b g with
  | nil =>
    obtain rfl : p = q := by simpa [EmitBuffer.calls] using steps
    exact ⟨b, g, rfl, tracks, same⟩
  | cons first rest ih =>
    simp only [boundLabels, List.flatMap_cons, List.nodup_append, List.mem_append] at once fresh
    obtain ⟨p', step, pPlain', -, -, -, offsets⟩ := pPlain.call first
    have later : ∀ label ∈ boundLabels rest, p'.labelOffsets label = none := by
      intro label member
      have notFirst : label ∉ first.labels :=
        fun member' => once.2.2 label member' label member rfl
      rw [offsets, EmitCall.offsets, if_neg notFirst]
      exact fresh label (.inr member)
    obtain ⟨q', steps', -, extension, -⟩ := pPlain'.calls once.2.1 later
    have rest' : p'.calls rest = some q := by simpa [EmitBuffer.calls, step] using steps
    obtain rfl := Option.some.inj (rest'.symm.trans steps')
    obtain ⟨b', g', result, tracks', same'⟩ := tracks.call same isPlain pPlain within
      (fits first (by simp)) (fun label member => fresh label (.inl member)) step
      (extension.trans inside)
    obtain ⟨t, g'', results, tracks'', same''⟩ := ih tracks' same' pPlain'
      (fun c member => fits c (by simp [member])) once.2.1 later rest'
    exact ⟨t, g'', by simp [EmitBuffer.calls, result, results], tracks'', same''⟩

/-- The empty buffer is tracked. -/
theorem new (enabled : Bool) :
    Tracks plain taken 0 (.new plain.blockLabels enabled) fun _ => 0 where
  tail := rfl
  entry := .refl _
  slot := by simp [EmitBuffer.new]
  aliased := by simp [EmitBuffer.new]
  bound := by simp [EmitBuffer.new]
  labels := rfl
  recorded := Recorded.new plain.blockLabels enabled

end Tracks

/-! ## The simulation -/

/-- The plain machine stands at the slot at which the optimised slot stands. -/
def Aligned (b : EmitBuffer) (g : Nat → Nat) (s t : SlotState) : Prop :=
  t = ⟨g s.pc, s.executed⟩ ∧ s.pc ≤ b.slots.length

namespace Tracks

variable {plain : EmitBuffer} {taken : Outcome} {b : EmitBuffer} {g : Nat → Nat}

section Finished

variable (tracks : Tracks plain taken plain.slots.length b g)
  (within : ∀ {label off}, plain.labelOffsets label = some off → label < plain.blockLabels.length)
  (same : SameBound plain b)

include tracks within same

/-- At the end every label the plain program binds resolves to a slot. -/
theorem label_resolves {label : MirBlockIndex} {off : Nat}
    (bound : plain.labelOffsets label = some off) :
    ∃ rootOff, b.resolveLabelOffset label = some (some rootOff) ∧ rootOff ≤ b.slots.length ∧
      Flow plain taken off (g rootOff) := by
  obtain ⟨path, root, chain, resolves⟩ := tracks.resolve_ne_none (within bound)
  obtain ⟨rootOff, rootBound⟩ : ∃ o, b.labelOffsets root = some o := by
    refine Option.ne_none_iff_exists'.mp fun unbound => ?_
    obtain ⟨p, hp⟩ := tracks.chain_bound chain bound
    simp [(same.unbound root).mp unbound] at hp
  obtain ⟨p, hp, flow⟩ := tracks.label_flow chain rootBound
  obtain rfl := Option.some.inj (bound.symm.trans hp)
  exact ⟨rootOff, by rw [resolves, rootBound],
    tracks.recorded.offset_le rootBound chain.root_free, flow⟩

/-- Where the optimised program has a slot, it makes a step, and the plain
program answers it with at least one. -/
theorem step_answered {pc : Nat} {slot : Slot} (here : b.slots[pc]? = some slot)
    (executed : List String) :
    ∃ next t, slotStep b taken ⟨pc, executed⟩ = some next ∧
      (slotMachine plain taken).StepsPlus ⟨g pc, executed⟩ t ∧ Aligned b g next t := by
  have tracked := tracks.slot here
  have inBounds := (List.getElem?_eq_some_iff.mp here).1
  cases slot with
  | veneer veneer => exact absurd tracked (by simp [SlotTracks])
  | text text =>
    obtain ⟨plainSlot, flow⟩ := tracked
    have first : slotStep plain taken ⟨g pc, executed⟩ =
        some ⟨g pc + 1, executed ++ [text]⟩ := by simp [slotStep, plainSlot]
    exact ⟨⟨pc + 1, executed ++ [text]⟩, _, by simp [slotStep, here],
      StepsPlus.trans_steps (.single first) (flow (executed ++ [text])).1, rfl, inBounds⟩
  | branch branch =>
    obtain ⟨target, off, block, bound, paths⟩ := tracked
    obtain ⟨rootOff, resolves, le, flow⟩ := tracks.label_resolves within same bound
    cases inv : branch.invPrefix with
    | none =>
      rw [inv] at paths
      exact ⟨⟨rootOff, executed⟩, _, by simp [slotStep, here, inv, block, resolves],
        (paths executed).1.trans_steps (flow executed).1, rfl, le⟩
    | some inverted =>
      rw [inv] at paths
      have path := (paths executed).2
      by_cases outcome : taken executed branch.prefixText = true
      · rw [if_pos outcome] at path
        exact ⟨⟨rootOff, executed⟩, _,
          by simp [slotStep, here, inv, outcome, block, resolves],
          path.1.trans_steps (flow executed).1, rfl, le⟩
      · rw [if_neg outcome] at path
        exact ⟨⟨pc + 1, executed⟩, _, by simp [slotStep, here, inv, outcome], path.1, rfl,
          inBounds⟩

/-- The plain program simulates the optimised one. -/
theorem simulation :
    PlusSimulation (slotMachine b taken) (slotMachine plain taken) (Aligned b g) where
  history := by
    rintro s t ⟨rfl, -⟩
    rfl
  step := by
    rintro ⟨pc, executed⟩ t next ⟨rfl, -⟩ step
    cases here : b.slots[pc]? with
    | none => simp [slotMachine, slotStep, here] at step
    | some slot =>
      obtain ⟨next', t, step', answer, aligned⟩ :=
        tracks.step_answered within same here executed
      obtain rfl := Option.some.inj (step'.symm.trans step)
      exact ⟨t, answer, aligned⟩
  halt := by
    rintro ⟨pc, executed⟩ t ⟨rfl, le⟩ halted
    cases here : b.slots[pc]? with
    | some slot =>
      obtain ⟨next, t, step, -⟩ := tracks.step_answered within same here executed
      exact absurd (halted.symm.trans step) (by simp)
    | none =>
      obtain rfl : pc = b.slots.length :=
        Nat.le_antisymm le (List.getElem?_eq_none_iff.mp here)
      have stopped : slotStep plain taken ⟨g b.slots.length, executed⟩ = none := by
        simp [slotStep, tracks.tail]
      exact ⟨_, .refl _, stopped⟩

end Finished

end Tracks

/-! ## Emitted functions -/

/-- The calls of one function, as its clients make them: every label is bound once and is one of the
function's blocks, every branch targets a label that is bound sooner or later, and the two texts of
a conditional branch have opposite outcomes. -/
structure CallsWellFormed (blockLabels : List String) (taken : Outcome)
    (sequence : List EmitCall) : Prop where
  once : (boundLabels sequence).Nodup
  inRange : ∀ label ∈ boundLabels sequence, label < blockLabels.length
  bound : ∀ c ∈ sequence, ∀ target, c.target = some target → target ∈ boundLabels sequence
  complementary : ∀ prefixText inverted target kind,
    EmitCall.putBranch prefixText inverted target kind ∈ sequence → ∀ executed,
      taken executed inverted = !taken executed prefixText

/-- With and without branch optimisation the same calls give two programs that
run through the same texts, from slot 0 and from every bound label. -/
theorem emit_behaves {blockLabels : List String} {taken : Outcome} {sequence : List EmitCall}
    (wellFormed : CallsWellFormed blockLabels taken sequence) :
    ∃ optimized plain, EmitBuffer.emit blockLabels true sequence = some optimized ∧
      EmitBuffer.emit blockLabels false sequence = some plain ∧
      (∀ executed, Behaves (slotMachine optimized taken) (slotMachine plain taken)
        ⟨0, executed⟩ ⟨0, executed⟩) ∧
      ∀ label ∈ boundLabels sequence, ∃ off plainOff,
        optimized.resolveLabelOffset label = some (some off) ∧
        plain.resolveLabelOffset label = some (some plainOff) ∧
        ∀ executed, Behaves (slotMachine optimized taken) (slotMachine plain taken)
          ⟨off, executed⟩ ⟨plainOff, executed⟩ := by
  have empty : Plain (.new blockLabels false) := ⟨rfl, rfl⟩
  obtain ⟨last, steps, lastPlain, extension, bound⟩ :=
    empty.calls wellFormed.once fun _ _ => rfl
  obtain ⟨tailLabels, tailOff, cleared, -⟩ := lazilyClear_spec last
  have isPlain := lastPlain.lazilyClear
  set plain := last.lazilyClearLabelsAtTail with plainDef
  have slots : plain.slots = last.slots := by rw [cleared]
  have offsets : plain.labelOffsets = last.labelOffsets := by rw [cleared]
  have pending : plain.pending = last.pending := by rw [cleared]
  have names : plain.blockLabels = blockLabels := by
    rw [cleared]
    exact extension.names
  have isBound : ∀ label, label ∈ boundLabels sequence ↔ plain.labelOffsets label ≠ none := by
    intro label
    rw [offsets, Ne, bound]
    simp [EmitBuffer.new]
  have within : ∀ {label off}, plain.labelOffsets label = some off →
      label < plain.blockLabels.length := by
    intro label off h
    rw [names]
    exact wellFormed.inRange label ((isBound label).mpr (by simp [h]))
  have fits : ∀ c ∈ sequence, CallFits plain taken c := by
    intro c member
    refine ⟨fun {label} target => (isBound label).mp (wellFormed.bound c member label target), ?_⟩
    rintro prefixText inverted target kind rfl executed
    exact wellFormed.complementary prefixText inverted target kind member executed
  have start : Tracks plain taken 0 (.new blockLabels true) fun _ => 0 := names ▸ .new true
  obtain ⟨b, g, results, tracks, same⟩ := start.calls (p := .new blockLabels false)
    ⟨rfl, fun _ => Iff.rfl⟩ isPlain empty within fits wellFormed.once (fun _ _ => rfl) steps
    ⟨slots ▸ List.prefix_rfl, fun h => by rwa [offsets], by rw [cleared]⟩
  obtain ⟨optimized, g', result, tracks', same'⟩ := tracks.optimizeBranches within
  rw [← slots] at tracks'
  have same'' : SameBound plain optimized :=
    ⟨(same'.pending.trans same.pending).trans pending.symm, fun label => by
      rw [same'.unbound, same.unbound, offsets]⟩
  have sim := tracks'.simulation within same''
  refine ⟨optimized, plain, by simp [EmitBuffer.emit, results, result],
    by simp [EmitBuffer.emit, steps, lastPlain.optimizeBranches, plainDef], fun executed => ?_,
    fun label member => ?_⟩
  · exact (sim.behaves ⟨rfl, Nat.zero_le _⟩).of_silent (tracks'.entry executed)
  · obtain ⟨plainOff, here⟩ := Option.ne_none_iff_exists'.mp ((isBound label).mp member)
    obtain ⟨off, resolves, le, flow⟩ := tracks'.label_resolves within same'' here
    exact ⟨off, plainOff, resolves, by rw [isPlain.resolveLabelOffset_eq, here],
      fun executed => (sim.behaves ⟨rfl, le⟩).of_silent (flow executed)⟩

/-- The calls of the test of the inversion rule: a conditional branch over an
unconditional one, followed by the block the conditional branch goes to. -/
def invertedBranchCalls : List EmitCall :=
  [.bindLabel 0, .putBranch "beq " "bne " 1 ⟨4, 4⟩, .putUncondBranch "b " 2 ⟨4, 4⟩,
    .bindLabel 1, .writeStr "add", .endInst, .bindLabel 2, .writeStr "ret", .endInst]

/-- The hypotheses hold of these calls when the outcome of `bne` is the opposite
of that of `beq`. -/
theorem emit_behaves_inverted :
    ∃ optimized plain, EmitBuffer.emit ["a", "b", "c"] true invertedBranchCalls = some optimized ∧
      EmitBuffer.emit ["a", "b", "c"] false invertedBranchCalls = some plain ∧
      (∀ executed, Behaves (slotMachine optimized fun _ text => text == "beq ")
        (slotMachine plain fun _ text => text == "beq ") ⟨0, executed⟩ ⟨0, executed⟩) ∧
      ∀ label ∈ boundLabels invertedBranchCalls, ∃ off plainOff,
        optimized.resolveLabelOffset label = some (some off) ∧
        plain.resolveLabelOffset label = some (some plainOff) ∧
        ∀ executed, Behaves (slotMachine optimized fun _ text => text == "beq ")
          (slotMachine plain fun _ text => text == "beq ") ⟨off, executed⟩ ⟨plainOff, executed⟩ :=
  emit_behaves
    { once := by decide
      inRange := by decide
      bound := by decide
      complementary := by
        intro prefixText inverted target kind member
        simp only [invertedBranchCalls, List.mem_cons, EmitCall.putBranch.injEq, reduceCtorEq,
          List.not_mem_nil, or_false, false_or] at member
        obtain ⟨rfl, rfl, -, -⟩ := member
        exact fun _ => by decide }

end AnonCompiler.Mir
