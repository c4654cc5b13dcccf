import AnonCompiler.Lib.Machine
import AnonCompiler.Mir.EmitBuffer
import Mathlib.Data.List.Perm.Subperm

/-!
# Running a finished buffer

A finished buffer is a program: text slots run one after the other, a branch
slot goes to the slot of its target label after alias resolution, and the
machine stops when it runs off the end.  Whether a conditional branch is taken
depends on its text and on the instructions executed so far.

Alias resolution follows chains of labels.  A chain that ends meets no label
twice, so it is no longer than the number of labels, which is what the bounded
loop of the source relies on.
-/

set_option autoImplicit false

namespace AnonCompiler.Mir

open Lib

/-! ## Running a slot program -/

/-- A position in the slots and the texts executed so far. -/
structure SlotState where
  pc : Nat
  executed : List String

/-- Which conditional branches are taken: by the texts executed so far and the
text of the branch. -/
abbrev Outcome := List String → String → Bool

def slotStep (b : EmitBuffer) (taken : Outcome) (s : SlotState) : Option SlotState :=
  match b.slots[s.pc]? with
  | none => none
  | some (.text text) => some ⟨s.pc + 1, s.executed ++ [text]⟩
  | some (.veneer _) => none
  | some (.branch branch) =>
    if branch.invPrefix = none ∨ taken s.executed branch.prefixText = true then
      match branch.target with
      | .block target =>
        match b.resolveLabelOffset target with
        | some (some off) => some ⟨off, s.executed⟩
        | _ => none
      | _ => none
    else some ⟨s.pc + 1, s.executed⟩

/-- Texts are only ever appended, one by one. -/
theorem slotStep_grows {b : EmitBuffer} {taken : Outcome} {s t : SlotState}
    (h : slotStep b taken s = some t) :
    t.executed = s.executed ∨ ∃ text, t.executed = s.executed ++ [text] := by
  unfold slotStep at h
  split at h
  case h_1 | h_3 => cases h
  case h_2 text _ =>
    obtain rfl := Option.some.inj h
    exact .inr ⟨text, rfl⟩
  case h_4 branch _ =>
    split at h
    case isFalse =>
      obtain rfl := Option.some.inj h
      exact .inl rfl
    case isTrue =>
      split at h
      case h_2 => cases h
      case h_1 target _ =>
        split at h
        case h_2 => cases h
        case h_1 off _ =>
          obtain rfl := Option.some.inj h
          exact .inl rfl

/-- The program a buffer holds, as a machine. -/
def slotMachine (b : EmitBuffer) (taken : Outcome) : Machine String where
  State := SlotState
  step := slotStep b taken
  history := SlotState.executed
  grows := slotStep_grows

/-! ## Alias chains -/

/-- `path` is the list of labels met when following aliases from `label` to the
unaliased label `root`. -/
inductive AliasPath (aliases : MirBlockIndex → Option MirBlockIndex) :
    MirBlockIndex → List MirBlockIndex → MirBlockIndex → Prop where
  | root {label : MirBlockIndex} (free : aliases label = none) :
        AliasPath aliases label [label] label
  | next {label target root : MirBlockIndex} {path : List MirBlockIndex}
      (hop : aliases label = some target) (rest : AliasPath aliases target path root) :
      AliasPath aliases label (label :: path) root

namespace AliasPath

variable {aliases : MirBlockIndex → Option MirBlockIndex} {label root : MirBlockIndex}
  {path : List MirBlockIndex}

section

variable (chain : AliasPath aliases label path root)
include chain

theorem aliasRoot_eq {fuel : Nat} (enough : path.length ≤ fuel) :
    aliasRoot aliases fuel label = some root := by
  induction chain generalizing fuel with
  | root free =>
    cases fuel with
    | zero => simp at enough
    | succ fuel => simp [aliasRoot, free]
  | next hop _ ih =>
    cases fuel with
    | zero => simp at enough
    | succ fuel =>
      simp only [List.length_cons] at enough
      simpa [aliasRoot, hop] using ih (Nat.le_of_succ_le_succ enough)

theorem root_free : aliases root = none := by
  induction chain with
  | root free => exact free
  | next _ _ ih => exact ih

/-- A chain is determined by where it starts. -/
theorem unique {path' : List MirBlockIndex} {root' : MirBlockIndex}
    (chain' : AliasPath aliases label path' root') : path = path' ∧ root = root' := by
  induction chain generalizing path' root' with
  | root free =>
    cases chain' with
    | root _ => exact ⟨rfl, rfl⟩
    | next hop _ => simp [free] at hop
  | next hop _ ih =>
    cases chain' with
    | root free => simp [free] at hop
    | next hop' rest' =>
      obtain rfl := Option.some.inj (hop.symm.trans hop')
      obtain ⟨rfl, rfl⟩ := ih rest'
      exact ⟨rfl, rfl⟩

/-- From every label on a chain the chain goes on to the same root, by a path
that is not longer. -/
theorem suffix {met : MirBlockIndex} (member : met ∈ path) :
    ∃ rest, AliasPath aliases met rest root ∧ rest.length ≤ path.length := by
  induction chain with
  | root free =>
    obtain rfl := List.mem_singleton.mp member
    exact ⟨_, .root free, Nat.le_refl _⟩
  | next hop rest ih =>
    rcases List.mem_cons.mp member with rfl | later
    · exact ⟨_, .next hop rest, Nat.le_refl _⟩
    · obtain ⟨path', chain', short⟩ := ih later
      exact ⟨path', chain', Nat.le_succ_of_le short⟩

/-- A chain meets no label twice: from a repeated label it could not end. -/
theorem nodup : path.Nodup := by
  induction chain with
  | root _ => simp
  | next hop rest ih =>
    refine List.nodup_cons.mpr ⟨fun again => ?_, ih⟩
    obtain ⟨path', chain', short⟩ := rest.suffix again
    obtain ⟨rfl, -⟩ := chain'.unique (.next hop rest)
    simp only [List.length_cons] at short
    omega

end

end AliasPath

/-- Every label below the bound has an alias chain that stays below it. -/
structure Acyclic (aliases : MirBlockIndex → Option MirBlockIndex) (count : Nat) : Prop where
  chain : ∀ label, label < count → ∃ path root, AliasPath aliases label path root
  inside : ∀ {label target}, aliases label = some target → target < count

namespace Acyclic

variable {aliases : MirBlockIndex → Option MirBlockIndex} {count : Nat}

variable {label root : MirBlockIndex} {path : List MirBlockIndex}

theorem path_lt (acyclic : Acyclic aliases count) (chain : AliasPath aliases label path root)
    (lt : label < count) : ∀ met ∈ path, met < count := by
  induction chain with
  | root _ => simpa using lt
  | next hop _ ih =>
    intro met member
    rcases List.mem_cons.mp member with rfl | later
    · exact lt
    · exact ih (acyclic.inside hop) met later

/-- The bound of the source's loop suffices for every chain. -/
theorem aliasRoot_eq (acyclic : Acyclic aliases count) (chain : AliasPath aliases label path root)
    (lt : label < count) : aliasRoot aliases (count + 1) label = some root := by
  refine chain.aliasRoot_eq ?_
  have inRange : path ⊆ List.range count := fun met member =>
    List.mem_range.mpr (acyclic.path_lt chain lt met member)
  have short := (List.subperm_of_subset chain.nodup inRange).length_le
  simp only [List.length_range] at short
  omega

/-- Aliasing labels that are unaliased to a target whose chain ends elsewhere
keeps all chains finite. -/
theorem aliasLabels (acyclic : Acyclic aliases count) {labels : List MirBlockIndex}
    {target : MirBlockIndex} (lt : target < count) (chain : AliasPath aliases target path root)
    (free : ∀ label ∈ labels, aliases label = none) (elsewhere : root ∉ labels) :
    Acyclic (EmitBuffer.aliasLabels aliases labels target) count := by
  -- the chain of the target is untouched, because the aliased labels were free
  have kept : ∀ {label path'}, AliasPath aliases label path' root →
      AliasPath (EmitBuffer.aliasLabels aliases labels target) label path' root := by
    intro label path' chain'
    induction chain' with
    | root free' => exact .root (by simp [EmitBuffer.aliasLabels, elsewhere, free'])
    | @next label' next' root' path'' hop _ ih =>
      refine @AliasPath.next _ label' next' root' path'' ?_ (ih chain elsewhere)
      have : label' ∉ labels := fun member => by simp [free _ member] at hop
      simp [EmitBuffer.aliasLabels, this, hop]
  refine ⟨fun label below => ?_, fun {label next} hop => ?_⟩
  · obtain ⟨path', root', chain'⟩ := acyclic.chain label below
    induction chain' with
    | @root label' free' =>
      by_cases member : label' ∈ labels
      · exact ⟨_, _, .next (by simp [EmitBuffer.aliasLabels, member]) (kept chain)⟩
      · exact ⟨_, _, .root (by simp [EmitBuffer.aliasLabels, member, free'])⟩
    | @next label' next' root' path'' hop _ ih =>
      obtain ⟨path₂, root₂, chain₂⟩ := ih (acyclic.inside hop)
      have : label' ∉ labels := fun member => by simp [free _ member] at hop
      exact ⟨_, _, .next (by simp [EmitBuffer.aliasLabels, this, hop]) chain₂⟩
  · unfold EmitBuffer.aliasLabels at hop
    split at hop
    · exact Option.some.inj hop ▸ lt
    · exact acyclic.inside hop

end Acyclic

end AnonCompiler.Mir
