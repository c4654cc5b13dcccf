import AnonCompiler.Ir.Arena

/-!
# Uses and users agree

The sets `used_by` are the converse of the operands and targets in the arena, and the
layout's map agrees with its lists (`Consistent`).  Each mutator is described by what it
does to the two relations; a call keeps the state consistent exactly if it detaches no
instruction with local operands or laid-out targets, removes no terminator with a target
outside the layout, and inserts no instruction that is in the layout already
(`call_consistent_iff`).  The same is then true of every sequence of calls.
-/

set_option autoImplicit false

namespace AnonCompiler.Ir

namespace ArenaState

variable {s t r : ArenaState} {inst i u v w : Inst} {bb : BasicBlock}

/-- `u` is in `used_by(v)`. -/
def UsedBy (s : ArenaState) (v u : Inst) : Prop := ∃ used, s.insts v = some used ∧ u ∈ used.usedBy

/-- `u` has data, and `v` is one of its operands. -/
def Reads (s : ArenaState) (u v : Inst) : Prop :=
  ∃ used, s.insts u = some used ∧ v ∈ used.data.kind.instUsage

def BlockUsedBy (s : ArenaState) (bb : BasicBlock) (u : Inst) : Prop :=
  ∃ block, s.blocks bb = some block ∧ u ∈ block.usedBy

/-- `u` has data, and `bb` is one of its targets. -/
def Targets (s : ArenaState) (u : Inst) (bb : BasicBlock) : Prop :=
  ∃ used, s.insts u = some used ∧ bb ∈ used.data.kind.bbUsage

/-- The map from instructions to blocks agrees with the lists, which hold nothing twice. -/
structure LayoutAgrees (L : Layout) : Prop where
  parent : ∀ inst bb, L.parent inst = some bb ↔ bb ∈ L.bbs ∧ inst ∈ L.insts bb
  nodup : ∀ bb ∈ L.bbs, (L.insts bb).Nodup

/-- `used_by` is the converse of the operands for local values, those in `gone` apart. -/
def UsesAgree (s : ArenaState) (gone : List Inst) : Prop :=
  ∀ u v : Inst, u.isGlobal = false → v.isGlobal = false → v ∉ gone → (s.UsedBy v u ↔ s.Reads u v)

def TargetsAgree (s : ArenaState) : Prop :=
  ∀ (u : Inst) bb, u.isGlobal = false → (s.BlockUsedBy bb u ↔ s.Targets u bb)

/-- The reverse maps are the converse of the operands and of the targets, for local values. -/
structure Consistent (s : ArenaState) : Prop where
  uses : UsesAgree s []
  targets : TargetsAgree s
  layout : LayoutAgrees s.layout

/-- Handles from the next one on are unused. -/
structure Fresh (s : ArenaState) : Prop where
  bound : s.nextInst < 2 ^ 32 ∧ s.nextBlock < 2 ^ 32
  insts : s.nextInst = 0 ∨ ∀ u, s.nextInst ≤ u → s.insts u = none
  blocks : s.nextBlock = 0 ∨ ∀ bb, s.nextBlock ≤ bb → s.blocks bb = none

/-! ## Editing the users -/

/-- Only sets of users differ. -/
structure SameData (s t : ArenaState) : Prop where
  insts : ∀ u, (t.insts u).map UsedInst.data = (s.insts u).map UsedInst.data
  blocks : ∀ bb, (t.blocks bb).map BlockData.params = (s.blocks bb).map BlockData.params
  nextInst : t.nextInst = s.nextInst
  nextBlock : t.nextBlock = s.nextBlock
  layout : t.layout = s.layout

theorem SameData.refl : SameData s s := ⟨fun _ => rfl, fun _ => rfl, rfl, rfl, rfl⟩

theorem SameData.trans (first : SameData s t) (second : SameData t r) : SameData s r where
  insts u := (second.insts u).trans (first.insts u)
  blocks bb := (second.blocks bb).trans (first.blocks bb)
  nextInst := second.nextInst.trans first.nextInst
  nextBlock := second.nextBlock.trans first.nextBlock
  layout := second.layout.trans first.layout

theorem reads_iff_data : s.Reads u v ↔
    ∃ data, (s.insts u).map UsedInst.data = some data ∧ v ∈ data.kind.instUsage := by
  simp only [Reads, Option.map_eq_some_iff]
  constructor
  · rintro ⟨used, found, reads⟩
    exact ⟨used.data, ⟨used, found, rfl⟩, reads⟩
  · rintro ⟨_, ⟨used, found, rfl⟩, reads⟩
    exact ⟨used, found, reads⟩

theorem targets_iff_data : s.Targets u bb ↔
    ∃ data, (s.insts u).map UsedInst.data = some data ∧ bb ∈ data.kind.bbUsage := by
  simp only [Targets, Option.map_eq_some_iff]
  constructor
  · rintro ⟨used, found, reads⟩
    exact ⟨used.data, ⟨used, found, rfl⟩, reads⟩
  · rintro ⟨_, ⟨used, found, rfl⟩, reads⟩
    exact ⟨used, found, reads⟩

theorem SameData.reads (same : SameData s t) : t.Reads u v ↔ s.Reads u v := by
  rw [reads_iff_data, reads_iff_data, same.insts]

theorem SameData.targets (same : SameData s t) : t.Targets u bb ↔ s.Targets u bb := by
  rw [targets_iff_data, targets_iff_data, same.insts]

theorem SameData.isSome (same : SameData s t) : (t.insts u).isSome = (s.insts u).isSome := by
  rw [← Option.isSome_map (f := UsedInst.data), same.insts, Option.isSome_map]

theorem SameData.fresh (same : SameData s t) (fresh : Fresh s) : Fresh t where
  bound := by
    rw [same.nextInst, same.nextBlock]
    exact fresh.bound
  insts := by
    rw [same.nextInst]
    refine fresh.insts.imp_right fun unused u above => ?_
    rw [← Option.map_eq_none_iff (f := UsedInst.data), same.insts, unused u above, Option.map_none]
  blocks := by
    rw [same.nextBlock]
    refine fresh.blocks.imp_right fun unused bb above => ?_
    rw [← Option.map_eq_none_iff (f := BlockData.params), same.blocks, unused bb above,
      Option.map_none]

/-- An edit that adds `u` to the sets, or takes it out. -/
structure Marks (f : Finset Inst → Finset Inst) (i : Inst) (present : Prop) : Prop where
  other : ∀ users u, u ≠ i → (u ∈ f users ↔ u ∈ users)
  self : ∀ users, i ∈ f users ↔ present

theorem marks_insert (i : Inst) : Marks (insert i) i True where
  other users u differ := by simp [differ]
  self users := by simp

theorem marks_erase (i : Inst) : Marks (·.erase i) i False where
  other users u differ := by simp [differ]
  self users := by simp

/-- The sets of users of the listed instructions and blocks are edited, and nothing else. -/
structure Edited (i : Inst) (present : Prop) (operands : List Inst) (tos : List BasicBlock)
    (s t : ArenaState) : Prop extends SameData s t where
  otherUsedBy : ∀ u v : Inst, u ≠ i → (t.UsedBy v u ↔ s.UsedBy v u)
  selfUsedBy : ∀ v : Inst, v.isGlobal = false →
    (t.UsedBy v i ↔ v ∈ operands ∧ (s.insts v).isSome ∧ present ∨ v ∉ operands ∧ s.UsedBy v i)
  otherBlockUsedBy : ∀ u bb, u ≠ i → (t.BlockUsedBy bb u ↔ s.BlockUsedBy bb u)
  selfBlockUsedBy : ∀ bb, t.BlockUsedBy bb i ↔
    bb ∈ tos ∧ (s.blocks bb).isSome ∧ present ∨ bb ∉ tos ∧ s.BlockUsedBy bb i

theorem Edited.refl {present : Prop} : Edited i present [] [] s s where
  toSameData := .refl
  otherUsedBy _ _ _ := Iff.rfl
  selfUsedBy v _ := by simp
  otherBlockUsedBy _ _ _ := Iff.rfl
  selfBlockUsedBy bb := by simp

theorem SameData.isSome_block (same : SameData s t) :
    (t.blocks bb).isSome = (s.blocks bb).isSome := by
  rw [← Option.isSome_map (f := BlockData.params), same.blocks, Option.isSome_map]

theorem Edited.trans {present : Prop} {operands operands' : List Inst}
    {tos tos' : List BasicBlock}
    (first : Edited i present operands tos s t)
    (second : Edited i present operands' tos' t r) :
    Edited i present (operands ++ operands') (tos ++ tos') s r where
  toSameData := first.toSameData.trans second.toSameData
  otherUsedBy u v differ := (second.otherUsedBy u v differ).trans (first.otherUsedBy u v differ)
  selfUsedBy v isLocal := by
    rw [second.selfUsedBy v isLocal, first.selfUsedBy v isLocal, first.isSome, List.mem_append]
    grind
  otherBlockUsedBy u bb differ :=
    (second.otherBlockUsedBy u bb differ).trans (first.otherBlockUsedBy u bb differ)
  selfBlockUsedBy bb := by
    rw [second.selfBlockUsedBy bb, first.selfBlockUsedBy bb, first.isSome_block, List.mem_append]
    grind

theorem usedBy_update {used : UsedInst} (update : t.insts = Function.update s.insts v (some used)) :
    t.UsedBy w u ↔ if w = v then u ∈ used.usedBy else s.UsedBy w u := by
  by_cases same : w = v
  · subst same
    simp [UsedBy, update]
  · simp [UsedBy, update, same]

theorem blockUsedBy_update {bb' : BasicBlock} {block : BlockData} :
    (s.setBlock bb block).BlockUsedBy bb' u ↔
      if bb' = bb then u ∈ block.usedBy else s.BlockUsedBy bb' u := by
  by_cases same : bb' = bb
  · subst same
    simp [BlockUsedBy, setBlock]
  · simp [BlockUsedBy, setBlock, same]

variable {f : Finset Inst → Finset Inst} {present : Prop}

section

variable (marks : Marks f i present)
include marks

theorem editUsers_edited (edit : s.editUsers f v = some t) : Edited i present [v] [] s t := by
  obtain ⟨used, found, rfl⟩ := Option.map_eq_some_iff.mp edit
  cases isGlobal : v.isGlobal with
  | true =>
    simp only [setInst, isGlobal, if_true]
    refine ⟨⟨fun _ => rfl, fun _ => rfl, rfl, rfl, rfl⟩, fun _ _ _ => Iff.rfl,
      fun w isLocal => ?_, fun _ _ _ => Iff.rfl, fun bb => by simp [BlockUsedBy]⟩
    have differ : w ≠ v := by
      rintro rfl
      rw [isGlobal] at isLocal
      cases isLocal
    simp [UsedBy, differ]
  | false =>
    simp only [instData, isGlobal, Bool.false_eq_true, if_false] at found
    simp only [setInst, isGlobal, Bool.false_eq_true, if_false]
    refine ⟨⟨fun u => ?_, fun _ => rfl, rfl, rfl, rfl⟩, fun u w differ => ?_, fun w _ => ?_,
      fun _ _ _ => Iff.rfl, fun bb => by simp [BlockUsedBy]⟩
    · by_cases same : u = v
      · subst same
        simp [found]
      · simp [same]
    · rw [usedBy_update rfl]
      by_cases same : w = v
      · subst same
        simp [UsedBy, found, marks.other _ u differ]
      · simp [same]
    · rw [usedBy_update rfl]
      by_cases same : w = v
      · subst same
        simp [found, marks.self]
      · simp [same]

theorem editBlockUsers_edited (edit : s.editBlockUsers f bb = some t) :
    Edited i present [] [bb] s t := by
  obtain ⟨block, found, rfl⟩ := Option.map_eq_some_iff.mp edit
  refine ⟨⟨fun _ => rfl, fun b => ?_, rfl, rfl, rfl⟩, fun _ _ _ => Iff.rfl,
    fun v _ => by simp [UsedBy, setBlock], fun u b differ => ?_, fun b => ?_⟩
  · by_cases same : b = bb
    · subst same
      simp [setBlock, found]
    · simp [setBlock, same]
  · rw [blockUsedBy_update]
    by_cases same : b = bb
    · subst same
      simp [BlockUsedBy, found, marks.other _ u differ]
    · simp [same]
  · rw [blockUsedBy_update]
    by_cases same : b = bb
    · subst same
      simp [found, marks.self]
    · simp [same]

theorem editAllUsers_edited : {operands : List Inst} →
    {s : ArenaState} → editAllUsers f operands s = some t → Edited i present operands [] s t
  | [], _, edit => by
      cases edit
      exact .refl
  | _ :: _, _, edit => by
      obtain ⟨middle, first, rest⟩ := Option.bind_eq_some_iff.mp edit
      exact (editUsers_edited marks first).trans (editAllUsers_edited rest)

theorem editAllBlockUsers_edited : {tos : List BasicBlock} →
    {s : ArenaState} → editAllBlockUsers f tos s = some t → Edited i present [] tos s t
  | [], _, edit => by
      cases edit
      exact .refl
  | _ :: _, _, edit => by
      obtain ⟨middle, first, rest⟩ := Option.bind_eq_some_iff.mp edit
      exact (editBlockUsers_edited marks first).trans (editAllBlockUsers_edited rest)

end

section

variable (marks : Marks f i present)
include marks

theorem editUsage_edited {kind : InstKind} (edit : s.editUsage f kind = some t) :
    Edited i present kind.instUsage kind.bbUsage s t := by
  obtain ⟨middle, first, rest⟩ := Option.bind_eq_some_iff.mp edit
  have both := (editAllUsers_edited marks first).trans (editAllBlockUsers_edited marks rest)
  rwa [List.append_nil] at both

/-- The operands and targets whose users are edited exist. -/
theorem editAllUsers_present :
    {operands : List Inst} → {s : ArenaState} → editAllUsers f operands s = some t →
      ∀ v ∈ operands, v.isGlobal = false → (s.insts v).isSome
  | w :: rest, s, edit, v, member, isLocal => by
      obtain ⟨middle, first, others⟩ := Option.bind_eq_some_iff.mp edit
      rcases List.mem_cons.mp member with rfl | later
      · obtain ⟨used, found, _⟩ := Option.map_eq_some_iff.mp first
        simp only [instData, isLocal, Bool.false_eq_true, if_false] at found
        rw [found, Option.isSome_some]
      · rw [← (editUsers_edited marks first).isSome]
        exact editAllUsers_present others v later isLocal

theorem editAllBlockUsers_present : {tos : List BasicBlock} →
    {s : ArenaState} → editAllBlockUsers f tos s = some t → ∀ bb ∈ tos, (s.blocks bb).isSome
  | _ :: rest, s, edit, bb, member => by
      obtain ⟨middle, first, others⟩ := Option.bind_eq_some_iff.mp edit
      rcases List.mem_cons.mp member with rfl | later
      · obtain ⟨block, found, _⟩ := Option.map_eq_some_iff.mp first
        rw [found, Option.isSome_some]
      · rw [← (editBlockUsers_edited marks first).isSome_block]
        exact editAllBlockUsers_present others bb later

theorem editUsage_present {kind : InstKind} (edit : s.editUsage f kind = some t) :
    (∀ v ∈ kind.instUsage, v.isGlobal = false → (s.insts v).isSome) ∧
      ∀ bb ∈ kind.bbUsage, (s.blocks bb).isSome := by
  obtain ⟨middle, first, rest⟩ := Option.bind_eq_some_iff.mp edit
  refine ⟨editAllUsers_present marks first, fun bb target => ?_⟩
  rw [← (editAllUsers_edited marks first).isSome_block]
  exact editAllBlockUsers_present marks rest bb target

end

/-! ## Allocating -/

theorem reads_update {used : UsedInst} (update : t.insts = Function.update s.insts i (some used)) :
    t.Reads u v ↔ if u = i then v ∈ used.data.kind.instUsage else s.Reads u v := by
  by_cases same : u = i
  · subst same
    simp [Reads, update]
  · simp [Reads, update, same]

theorem targets_update {used : UsedInst}
    (update : t.insts = Function.update s.insts i (some used)) :
    t.Targets u bb ↔ if u = i then bb ∈ used.data.kind.bbUsage else s.Targets u bb := by
  by_cases same : u = i
  · subst same
    simp [Targets, update]
  · simp [Targets, update, same]

theorem UsedBy.isSome (used : s.UsedBy v u) : (s.insts v).isSome := by
  obtain ⟨_, found, _⟩ := used
  rw [found, Option.isSome_some]

theorem Reads.isSome (reads : s.Reads u v) : (s.insts u).isSome := by
  obtain ⟨_, found, _⟩ := reads
  rw [found, Option.isSome_some]

theorem Targets.isSome (targets : s.Targets u bb) : (s.insts u).isSome := by
  obtain ⟨_, found, _⟩ := targets
  rw [found, Option.isSome_some]

theorem BlockUsedBy.isSome (used : s.BlockUsedBy bb u) : (s.blocks bb).isSome := by
  obtain ⟨_, found, _⟩ := used
  rw [found, Option.isSome_some]

theorem nextHandle_cases {handle : Nat} (bound : handle < 2 ^ 32) :
    nextHandle handle = 0 ∨ nextHandle handle = handle + 1 := by
  unfold nextHandle
  omega

theorem nextHandle_lt (handle : Nat) : nextHandle handle < 2 ^ 32 := Nat.mod_lt _ (by decide)

theorem putInst_fresh (fresh : Fresh s) (valid : s.nextInst ≠ 0) (data : InstData) :
    Fresh (s.putInst data) where
  bound := ⟨nextHandle_lt _, fresh.bound.2⟩
  insts := by
    refine (nextHandle_cases fresh.bound.1).imp_right fun next u above => ?_
    have old := fresh.insts.resolve_left valid u
    have above' : s.nextInst + 1 ≤ u := next ▸ above
    have differ : u ≠ s.nextInst := by
      rintro rfl
      exact absurd above' (Nat.not_succ_le_self _)
    simp only [putInst, Function.update_of_ne differ]
    exact old (Nat.le_of_succ_le above')
  blocks := fresh.blocks

structure SameLayout (s t : ArenaState) : Prop where
  fresh : Fresh t
  layout : t.layout = s.layout

/-- A new instruction is registered with its operands and targets. -/
theorem allocLocalInst_agrees {data : InstData} (fresh : Fresh s) (uses : UsesAgree s [])
    (targets : TargetsAgree s) (alloc : s.allocLocalInst data = some t) :
    UsesAgree t [] ∧ TargetsAgree t ∧ SameLayout s t := by
  have valid : s.nextInst ≠ 0 := by
    intro zero
    simp [allocLocalInst, zero] at alloc
  simp only [allocLocalInst, valid, if_false] at alloc
  have edited := editUsage_edited (marks_insert s.nextInst) alloc
  obtain ⟨operands, tos⟩ := editUsage_present (marks_insert s.nextInst) alloc
  have unused : s.insts s.nextInst = none := fresh.insts.resolve_left valid _ le_rfl
  refine ⟨fun u v localU localV _ => ?_, fun u bb localU => ?_, ?_, edited.layout⟩
  · have put : (s.putInst data).insts = Function.update s.insts s.nextInst (some ⟨data, ∅⟩) := rfl
    rw [edited.reads, reads_update put]
    by_cases same : u = s.nextInst
    · subst same
      rw [edited.selfUsedBy v localV, if_pos rfl]
      have notYet : ¬ (s.putInst data).UsedBy v s.nextInst := by
        rw [usedBy_update put]
        split
        · simp
        · intro used
          have read := ((uses s.nextInst v localU localV (List.not_mem_nil)).mp used).isSome
          simp [unused] at read
      constructor
      · rintro (⟨reads, _⟩ | ⟨_, used⟩)
        · exact reads
        · exact absurd used notYet
      · exact fun reads => .inl ⟨reads, operands v reads localV, trivial⟩
    · rw [edited.otherUsedBy u v same, if_neg same, usedBy_update put,
        ← uses u v localU localV (List.not_mem_nil)]
      by_cases new : v = s.nextInst
      · subst new
        rw [if_pos rfl]
        refine ⟨fun used => absurd used (Finset.notMem_empty u), fun used => ?_⟩
        have := used.isSome
        simp [unused] at this
      · rw [if_neg new]
  · have put : (s.putInst data).insts = Function.update s.insts s.nextInst (some ⟨data, ∅⟩) := rfl
    rw [edited.targets, targets_update put]
    by_cases same : u = s.nextInst
    · subst same
      rw [edited.selfBlockUsedBy bb, if_pos rfl]
      have notYet : ¬ (s.putInst data).BlockUsedBy bb s.nextInst := by
        intro used
        have target := ((targets s.nextInst bb localU).mp used).isSome
        simp [unused] at target
      constructor
      · rintro (⟨target, _⟩ | ⟨_, used⟩)
        · exact target
        · exact absurd used notYet
      · exact fun target => .inl ⟨target, tos bb target, trivial⟩
    · rw [edited.otherBlockUsedBy u bb same, if_neg same, ← targets u bb localU]
      rfl
  · exact edited.toSameData.fresh (putInst_fresh fresh valid data)

/-! ## Detaching and removing -/

theorem SameData.hasInstData (same : SameData s t) (v : Inst) :
    t.hasInstData v = s.hasInstData v := by
  simp only [ArenaState.hasInstData, same.isSome]

theorem detachOperands_edited : {operands : List Inst} → {s : ArenaState} →
    detachOperands i operands s = some t → Edited i False (operands.filter s.hasInstData) [] s t
  | [], _, detach => by
      cases detach
      exact .refl
  | v :: rest, s, detach => by
      rw [detachOperands] at detach
      split at detach
      case isTrue present =>
        obtain ⟨middle, first, others⟩ := Option.bind_eq_some_iff.mp detach
        have edited := editUsers_edited (marks_erase i) first
        have more := edited.trans (detachOperands_edited others)
        rwa [List.filter_congr fun w _ => edited.hasInstData w, List.singleton_append,
          ← List.filter_cons_of_pos present] at more
      case isFalse absent =>
        rw [List.filter_cons_of_neg absent]
        exact detachOperands_edited detach

theorem detachTargets_edited : {tos : List BasicBlock} → {s : ArenaState} →
    detachTargets i tos s = some t → Edited i False [] (tos.filter s.layout.containsBb) s t
  | [], _, detach => by
      cases detach
      exact .refl
  | bb :: rest, s, detach => by
      rw [detachTargets] at detach
      split at detach
      case isTrue present =>
        obtain ⟨middle, first, others⟩ := Option.bind_eq_some_iff.mp detach
        have edited := editBlockUsers_edited (marks_erase i) first
        have more := edited.trans (detachTargets_edited others)
        rwa [edited.layout, List.singleton_append, ← List.filter_cons_of_pos present] at more
      case isFalse absent =>
        rw [List.filter_cons_of_neg absent]
        exact detachTargets_edited detach

/-- An instruction leaves the users of its operands and of its targets in the layout. -/
structure Detached (i : Inst) (kind : InstKind) (s t : ArenaState) : Prop extends SameData s t where
  isLocal : i.isGlobal = false
  found : ∃ used, s.insts i = some used ∧ used.data.kind = kind
  usedBy : ∀ u v : Inst, v.isGlobal = false →
    (t.UsedBy v u ↔ s.UsedBy v u ∧ ¬ (u = i ∧ v ∈ kind.instUsage))
  blockUsedBy : ∀ u bb,
    (t.BlockUsedBy bb u ↔ s.BlockUsedBy bb u ∧ ¬ (u = i ∧ bb ∈ kind.bbUsage ∧ bb ∈ s.layout.bbs))

theorem detachInstUsage_detached (detach : s.detachInstUsage i = some t) :
    ∃ kind, Detached i kind s t := by
  obtain ⟨old, found, detach⟩ := Option.bind_eq_some_iff.mp detach
  obtain ⟨middle, operands, targets⟩ := Option.bind_eq_some_iff.mp detach
  have isLocal : i.isGlobal = false := by
    by_contra isGlobal
    simp [localData, isGlobal] at found
  have first := detachOperands_edited operands
  have edited := first.trans (detachTargets_edited targets)
  rw [first.layout, List.append_nil, List.nil_append] at edited
  simp only [localData, isLocal, Bool.false_eq_true, if_false] at found
  refine ⟨old.data.kind, edited.toSameData, isLocal, ⟨old, found, rfl⟩, fun u v localV => ?_,
    fun u bb => ?_⟩
  · by_cases same : u = i
    · subst same
      rw [edited.selfUsedBy v localV, List.mem_filter]
      constructor
      · rintro (⟨_, _, absurd⟩ | ⟨outside, used⟩)
        · exact absurd.elim
        · refine ⟨used, fun operand => outside ⟨operand.2, ?_⟩⟩
          simp [ArenaState.hasInstData, localV, used.isSome]
      · exact fun used => .inr ⟨fun inside => used.2 ⟨rfl, inside.1⟩, used.1⟩
    · rw [edited.otherUsedBy u v same]
      simp [same]
  · by_cases same : u = i
    · subst same
      rw [edited.selfBlockUsedBy bb, List.mem_filter]
      simp only [Layout.containsBb, decide_eq_true_eq, and_false, false_or, true_and]
      exact and_comm
    · rw [edited.otherBlockUsedBy u bb same]
      simp [same]

/-- An instruction leaves the arena, after its operands and its targets in the layout. -/
structure Dropped (i : Inst) (kind : InstKind) (s t : ArenaState) : Prop where
  isLocal : i.isGlobal = false
  found : ∃ used, s.insts i = some used ∧ used.data.kind = kind
  gone : t.insts i = none
  others : ∀ u, u ≠ i → (t.insts u).map UsedInst.data = (s.insts u).map UsedInst.data
  usedBy : ∀ u v : Inst, v.isGlobal = false → v ≠ i →
    (t.UsedBy v u ↔ s.UsedBy v u ∧ ¬ (u = i ∧ v ∈ kind.instUsage))
  blockUsedBy : ∀ u bb,
    (t.BlockUsedBy bb u ↔ s.BlockUsedBy bb u ∧ ¬ (u = i ∧ bb ∈ kind.bbUsage ∧ bb ∈ s.layout.bbs))
  fresh : Fresh s → Fresh t

theorem withLayout_eq {layout : Option Layout} (laidOut : s.withLayout layout = some t) :
    ∃ L, layout = some L ∧ t = { s with layout := L } := by
  obtain ⟨L, found, rfl⟩ := Option.map_eq_some_iff.mp laidOut
  exact ⟨L, found, rfl⟩

theorem Detached.drop {kind : InstKind} (detached : Detached i kind s t) (layout : Layout)
    (remove : removeInstData { t with layout := layout } i = some r) :
    Dropped i kind s r ∧ r.layout = layout := by
  obtain ⟨_, _, rfl⟩ := Option.map_eq_some_iff.mp remove
  simp only [setInst, detached.isLocal, Bool.false_eq_true, if_false]
  refine ⟨⟨detached.isLocal, detached.found, Function.update_self .., fun u differ => ?_,
    fun u v localV differ => ?_, fun u bb => ?_, fun fresh => ?_⟩, trivial⟩
  · show (Function.update t.insts i none u).map UsedInst.data = _
    rw [Function.update_of_ne differ]
    exact detached.insts u
  · rw [← detached.usedBy u v localV]
    simp [UsedBy, differ]
  · exact detached.blockUsedBy u bb
  · have old := detached.toSameData.fresh fresh
    refine ⟨old.bound, old.insts.imp_right fun unused u above => ?_, old.blocks⟩
    by_cases same : u = i
    · subst same
      exact Function.update_self ..
    · simp only [Function.update_of_ne same]
      exact unused u above

theorem removeOrphanInst_dropped (remove : s.removeOrphanInst i = some t) :
    ∃ kind, Dropped i kind s t ∧ t.layout = s.layout := by
  obtain ⟨middle, detach, remove⟩ := Option.bind_eq_some_iff.mp remove
  obtain ⟨kind, detached⟩ := detachInstUsage_detached detach
  obtain ⟨dropped, layout⟩ := detached.drop middle.layout remove
  exact ⟨kind, dropped, layout.trans detached.layout⟩

theorem removeLayoutInst_dropped (remove : s.removeLayoutInst bb i = some t) :
    ∃ kind, Dropped i kind s t ∧ s.layout.removeInst bb i = some t.layout := by
  obtain ⟨middle, detach, rest⟩ := Option.bind_eq_some_iff.mp remove
  obtain ⟨_, laidOut, remove⟩ := Option.bind_eq_some_iff.mp rest
  obtain ⟨kind, detached⟩ := detachInstUsage_detached detach
  obtain ⟨L, found, rfl⟩ := withLayout_eq laidOut
  obtain ⟨dropped, layout⟩ := detached.drop L remove
  rw [detached.layout] at found
  exact ⟨kind, dropped, found.trans (congrArg some layout.symm)⟩

theorem Dropped.reads {kind : InstKind} (dropped : Dropped i kind s t) :
    t.Reads u v ↔ u ≠ i ∧ s.Reads u v := by
  by_cases same : u = i
  · subst same
    simp [Reads, dropped.gone]
  · rw [reads_iff_data, reads_iff_data, dropped.others u same]
    simp [same]

theorem Dropped.targets {kind : InstKind} (dropped : Dropped i kind s t) :
    t.Targets u bb ↔ u ≠ i ∧ s.Targets u bb := by
  by_cases same : u = i
  · subst same
    simp [Targets, dropped.gone]
  · rw [targets_iff_data, targets_iff_data, dropped.others u same]
    simp [same]

/-- The targets of an instruction with data are in the layout. -/
def TargetsLaidOut (s : ArenaState) (i : Inst) : Prop := ∀ bb, s.Targets i bb → bb ∈ s.layout.bbs

theorem Dropped.readsKind {kind : InstKind} (dropped : Dropped i kind s t) :
    s.Reads i v ↔ v ∈ kind.instUsage := by
  obtain ⟨used, found, rfl⟩ := dropped.found
  simp [Reads, found]

theorem Dropped.targetsKind {kind : InstKind} (dropped : Dropped i kind s t) :
    s.Targets i bb ↔ bb ∈ kind.bbUsage := by
  obtain ⟨used, found, rfl⟩ := dropped.found
  simp [Targets, found]

theorem Dropped.usesAgree {kind : InstKind} {gone : List Inst} (dropped : Dropped i kind s t)
    (uses : UsesAgree s gone) : UsesAgree t (i :: gone) := by
  intro u v localU localV kept
  rw [List.mem_cons, not_or] at kept
  rw [dropped.usedBy u v localV kept.1, dropped.reads, uses u v localU localV kept.2]
  by_cases same : u = i
  · subst same
    rw [dropped.readsKind]
    grind
  · grind

theorem Dropped.targetsAgree {kind : InstKind} (dropped : Dropped i kind s t)
    (targets : TargetsAgree s) (laidOut : TargetsLaidOut s i) : TargetsAgree t := by
  intro u bb localU
  rw [dropped.blockUsedBy, dropped.targets, targets u bb localU]
  by_cases same : u = i
  · subst same
    have inLayout := laidOut bb
    rw [dropped.targetsKind] at inLayout ⊢
    grind
  · grind

/-- The instructions leave the arena one after the other. -/
structure DroppedAll (removed : List Inst) (s t : ArenaState) : Prop where
  isLocal : ∀ i ∈ removed, i.isGlobal = false
  gone : ∀ i ∈ removed, t.insts i = none
  others : ∀ u, u ∉ removed → (t.insts u).map UsedInst.data = (s.insts u).map UsedInst.data
  outside : ∀ u bb, bb ∉ s.layout.bbs → s.BlockUsedBy bb u → t.BlockUsedBy bb u
  uses : ∀ gone, UsesAgree s gone → UsesAgree t (removed ++ gone)
  targets : TargetsAgree s → (∀ i ∈ removed, TargetsLaidOut s i) → TargetsAgree t
  fresh : Fresh s → Fresh t

theorem Dropped.all {kind : InstKind} (dropped : Dropped i kind s t) : DroppedAll [i] s t where
  isLocal j member := by
    rw [List.mem_singleton.mp member]
    exact dropped.isLocal
  gone j member := by
    rw [List.mem_singleton.mp member]
    exact dropped.gone
  others u kept := dropped.others u fun same => kept (List.mem_singleton.mpr same)
  outside u bb notIn used := (dropped.blockUsedBy u bb).mpr ⟨used, fun inside => notIn inside.2.2⟩
  uses gone uses := dropped.usesAgree uses
  targets targets laidOut := dropped.targetsAgree targets (laidOut i (List.mem_singleton_self i))
  fresh := dropped.fresh

theorem removeOrphanInsts_dropped : {removed : List Inst} → {s : ArenaState} →
    removeOrphanInsts removed s = some t → DroppedAll removed s t ∧ t.layout = s.layout
  | [], _, remove => by
      cases remove
      exact ⟨⟨by simp, by simp, fun _ _ => rfl, fun _ _ _ used => used, fun _ uses => uses,
        fun targets _ => targets, id⟩, rfl⟩
  | i :: rest, s, remove => by
      obtain ⟨middle, first, others⟩ := Option.bind_eq_some_iff.mp remove
      obtain ⟨kind, dropped, layout⟩ := removeOrphanInst_dropped first
      obtain ⟨more, layout'⟩ := removeOrphanInsts_dropped others
      refine ⟨⟨fun j member => ?_, fun j member => ?_, fun u kept => ?_, fun u bb notIn used => ?_,
        fun gone uses => ?_, fun targets laidOut => ?_, more.fresh ∘ dropped.fresh⟩,
        layout'.trans layout⟩
      · rcases List.mem_cons.mp member with rfl | later
        · exact dropped.isLocal
        · exact more.isLocal j later
      · by_cases later : j ∈ rest
        · exact more.gone j later
        · obtain rfl : j = i := (List.mem_cons.mp member).resolve_right later
          rw [← Option.map_eq_none_iff (f := UsedInst.data), more.others j later, dropped.gone,
            Option.map_none]
      · rw [List.mem_cons, not_or] at kept
        rw [more.others u kept.2, dropped.others u kept.1]
      · apply more.outside u bb (layout ▸ notIn)
        exact dropped.all.outside u bb notIn used
      · have both := more.uses (i :: gone) (dropped.usesAgree uses)
        intro u v localU localV kept
        apply both u v localU localV
        simp only [List.mem_append, List.mem_cons, not_or] at kept ⊢
        exact ⟨kept.1.2, kept.1.1, kept.2⟩
      · apply more.targets
        · exact dropped.targetsAgree targets (laidOut i List.mem_cons_self)
        · intro j member bb target
          rw [layout]
          exact laidOut j (List.mem_cons_of_mem i member) bb (dropped.targets.mp target).2

/-- Removing instructions that only removed ones use leaves uses and users in agreement; targets
agree exactly if those of the removed instructions are in the layout. -/
theorem DroppedAll.agrees {removed : List Inst} (dropped : DroppedAll removed s t)
    (uses : UsesAgree s []) (targets : TargetsAgree s)
    (unused : ∀ u, ∀ v ∈ removed, s.Reads u v → u ∈ removed) :
    UsesAgree t [] ∧ (TargetsAgree t ↔ ∀ i ∈ removed, TargetsLaidOut s i) := by
  have reads (u v : Inst) (read : t.Reads u v) : u ∉ removed ∧ s.Reads u v := by
    have kept : u ∉ removed := by
      intro member
      have := read.isSome
      simp [dropped.gone u member] at this
    rw [reads_iff_data, dropped.others u kept, ← reads_iff_data] at read
    exact ⟨kept, read⟩
  refine ⟨fun u v localU localV _ => ?_, fun after i member bb target => ?_,
    dropped.targets targets⟩
  · by_cases member : v ∈ removed
    · constructor
      · intro used
        have := used.isSome
        simp [dropped.gone v member] at this
      · intro read
        obtain ⟨kept, read⟩ := reads u v read
        exact absurd (unused u v member read) kept
    · exact dropped.uses [] uses u v localU localV (by simpa using member)
  · by_contra outside
    have isLocal := dropped.isLocal i member
    have used := dropped.outside i bb outside ((targets i bb isLocal).mpr target)
    have := ((after i bb isLocal).mp used).isSome
    simp [dropped.gone i member] at this

/-! ## Replacing, and removing an instruction without users -/

section

variable (update : t.insts = Function.update s.insts i none)
include update

theorem usedBy_remove : t.UsedBy v u ↔ v ≠ i ∧ s.UsedBy v u := by
  by_cases same : v = i
  · subst same
    simp [UsedBy, update]
  · simp [UsedBy, update, same]

theorem reads_remove : t.Reads u v ↔ u ≠ i ∧ s.Reads u v := by
  by_cases same : u = i
  · subst same
    simp [Reads, update]
  · simp [Reads, update, same]

theorem targets_remove : t.Targets u bb ↔ u ≠ i ∧ s.Targets u bb := by
  by_cases same : u = i
  · subst same
    simp [Targets, update]
  · simp [Targets, update, same]

end

/-- Data for an instruction that has data, or none, leaves the unused handles unused. -/
theorem Fresh.update {used : Option UsedInst} (fresh : Fresh s) (known : (s.insts i).isSome) :
    Fresh { s with insts := Function.update s.insts i used } where
  bound := fresh.bound
  insts := by
    refine fresh.insts.imp_right fun unused u above => ?_
    have differ : u ≠ i := by
      rintro rfl
      simp [unused u above] at known
    simp only [Function.update_of_ne differ]
    exact unused u above
  blocks := fresh.blocks

theorem setInst_local (isLocal : i.isGlobal = false) (used : Option UsedInst) :
    s.setInst i used = { s with insts := Function.update s.insts i used } := by
  simp [setInst, isLocal]

theorem setInst_global (isGlobal : i.isGlobal = true) (used : Option UsedInst) :
    s.setInst i used = { s with globals := Function.update s.globals i used } := by
  simp [setInst, isGlobal]

theorem ne_of_isGlobal (isGlobal : i.isGlobal = true) (isLocal : u.isGlobal = false) : u ≠ i := by
  rintro rfl
  rw [isGlobal] at isLocal
  cases isLocal

/-- The two relations for local values, the layout and the unused handles are kept. -/
structure SameUses (s t : ArenaState) : Prop where
  usedBy : ∀ u v : Inst, u.isGlobal = false → v.isGlobal = false → (t.UsedBy v u ↔ s.UsedBy v u)
  reads : ∀ u v : Inst, t.Reads u v ↔ s.Reads u v
  blockUsedBy : ∀ (u : Inst) bb, u.isGlobal = false → (t.BlockUsedBy bb u ↔ s.BlockUsedBy bb u)
  targets : ∀ u bb, t.Targets u bb ↔ s.Targets u bb

theorem SameUses.usesAgree (same : SameUses s t) (uses : UsesAgree s []) : UsesAgree t [] :=
  fun u v localU localV kept => by
    rw [same.usedBy u v localU localV, same.reads]
    exact uses u v localU localV kept

theorem SameUses.targetsAgree (same : SameUses s t) (targets : TargetsAgree s) : TargetsAgree t :=
  fun u bb localU => by
    rw [same.blockUsedBy u bb localU, same.targets]
    exact targets u bb localU

theorem SameUses.trans (first : SameUses s t) (second : SameUses t r) : SameUses s r where
  usedBy u v localU localV :=
    (second.usedBy u v localU localV).trans (first.usedBy u v localU localV)
  reads u v := (second.reads u v).trans (first.reads u v)
  blockUsedBy u bb localU := (second.blockUsedBy u bb localU).trans (first.blockUsedBy u bb localU)
  targets u bb := (second.targets u bb).trans (first.targets u bb)

/-- Marking a global instruction says nothing about local ones. -/
theorem Edited.sameUses {operands : List Inst} {tos : List BasicBlock}
    (edited : Edited i present operands tos s t) (isGlobal : i.isGlobal = true) : SameUses s t where
  usedBy u v localU _ := edited.otherUsedBy u v (ne_of_isGlobal isGlobal localU)
  reads _ _ := edited.reads
  blockUsedBy u bb localU := edited.otherBlockUsedBy u bb (ne_of_isGlobal isGlobal localU)
  targets _ _ := edited.targets

theorem sameUses_globals (globals : Inst → Option UsedInst) : SameUses s
    { s with globals := globals } where
  usedBy _ _ _ _ := Iff.rfl
  reads _ _ := Iff.rfl
  blockUsedBy _ _ _ := Iff.rfl
  targets _ _ := Iff.rfl

/-- An instruction is removed that nothing uses. -/
theorem removeInst_agrees (uses : UsesAgree s []) (targets : TargetsAgree s) (fresh : Fresh s)
    (remove : s.removeInst i = some t) : UsesAgree t [] ∧ TargetsAgree t ∧ SameLayout s t := by
  obtain ⟨old, found, remove⟩ := Option.bind_eq_some_iff.mp remove
  split at remove
  case isFalse => cases remove
  case isTrue empty =>
  obtain ⟨middle, edit, rfl⟩ := Option.map_eq_some_iff.mp remove
  have edited := editUsage_edited (marks_erase i) edit
  have fresh' := edited.toSameData.fresh fresh
  cases isGlobal : i.isGlobal with
  | true =>
    rw [setInst_global isGlobal]
    have same :=
      (edited.sameUses isGlobal).trans (sameUses_globals (Function.update middle.globals i none))
    exact ⟨same.usesAgree uses, same.targetsAgree targets,
      ⟨⟨fresh'.bound, fresh'.insts, fresh'.blocks⟩, edited.layout⟩⟩
  | false =>
    simp only [instData, isGlobal, Bool.false_eq_true, if_false] at found
    rw [setInst_local isGlobal]
    have operand (v : Inst) : s.Reads i v ↔ v ∈ old.data.kind.instUsage := by simp [Reads, found]
    have target (bb : BasicBlock) : s.Targets i bb ↔ bb ∈ old.data.kind.bbUsage := by
      simp [Targets, found]
    have known : (middle.insts i).isSome := by
      rw [edited.isSome, found, Option.isSome_some]
    refine ⟨fun u v localU localV _ => ?_, fun u bb localU => ?_,
      ⟨fresh'.update known, edited.layout⟩⟩
    · rw [usedBy_remove rfl, reads_remove rfl, edited.reads]
      by_cases sameV : v = i
      · subst sameV
        constructor
        · exact fun used => absurd rfl used.1
        · rintro ⟨_, read⟩
          obtain ⟨used, found', member⟩ := (uses u v localU localV List.not_mem_nil).mpr read
          rw [found] at found'
          cases found'
          rw [empty] at member
          exact absurd member (Finset.notMem_empty u)
      · by_cases sameU : u = i
        · subst sameU
          rw [edited.selfUsedBy v localV, ← operand v, ← uses u v localU localV List.not_mem_nil]
          grind
        · rw [edited.otherUsedBy u v sameU, uses u v localU localV List.not_mem_nil]
          grind
    · show middle.BlockUsedBy bb u ↔ _
      rw [targets_remove (s := middle) rfl, edited.targets]
      by_cases sameU : u = i
      · subst sameU
        rw [edited.selfBlockUsedBy bb, ← target bb, ← targets u bb localU]
        grind
      · rw [edited.otherBlockUsedBy u bb sameU, targets u bb localU]
        grind

/-- A replaced instruction keeps its users and changes its operands and targets. -/
theorem replaceInstWith_agrees {data : InstData} (uses : UsesAgree s []) (targets : TargetsAgree s)
    (fresh : Fresh s) (replace : s.replaceInstWith i data = some t) :
    UsesAgree t [] ∧ TargetsAgree t ∧ SameLayout s t := by
  obtain ⟨old, found, replace⟩ := Option.bind_eq_some_iff.mp replace
  obtain ⟨middle, erase, replace⟩ := Option.bind_eq_some_iff.mp replace
  obtain ⟨last, add, rfl⟩ := Option.map_eq_some_iff.mp replace
  have erased := editUsage_edited (marks_erase i) erase
  have added := editUsage_edited (marks_insert i) add
  obtain ⟨newOperands, newTos⟩ := editUsage_present (marks_insert i) add
  have layout := added.layout.trans erased.layout
  cases isGlobal : i.isGlobal with
  | true =>
    rw [setInst_global isGlobal] at erased layout ⊢
    have start := sameUses_globals (s := s) (Function.update s.globals i none)
    have same := ((start.trans (erased.sameUses isGlobal)).trans (added.sameUses isGlobal)).trans
      (sameUses_globals (Function.update last.globals i (some ⟨data, old.usedBy⟩)))
    have fresh' := added.toSameData.fresh
      (erased.toSameData.fresh ⟨fresh.bound, fresh.insts, fresh.blocks⟩)
    exact ⟨same.usesAgree uses, same.targetsAgree targets,
      ⟨⟨fresh'.bound, fresh'.insts, fresh'.blocks⟩, layout⟩⟩
  | false =>
    simp only [instData, isGlobal, Bool.false_eq_true, if_false] at found
    rw [setInst_local isGlobal] at erased layout ⊢
    have operand (v : Inst) : s.Reads i v ↔ v ∈ old.data.kind.instUsage := by simp [Reads, found]
    have target (bb : BasicBlock) : s.Targets i bb ↔ bb ∈ old.data.kind.bbUsage := by
      simp [Targets, found]
    have known : (s.insts i).isSome := by rw [found, Option.isSome_some]
    -- the instruction itself has no data while its operands are registered
    have notOwn : i ∉ data.kind.instUsage := by
      intro own
      have := newOperands i own isGlobal
      simp [erased.isSome] at this
    have notOwnOld : ¬ s.Reads i i := by
      intro read
      obtain ⟨operands, _⟩ := editUsage_present (marks_erase i) erase
      have := operands i ((operand i).mp read) isGlobal
      simp [setInst_local isGlobal] at this
    have removed : ({ s with insts := Function.update s.insts i none } : ArenaState).insts =
        Function.update s.insts i none := rfl
    refine ⟨fun u v localU localV _ => ?_, fun u bb localU => ?_, ⟨?_, layout⟩⟩
    · rw [usedBy_update rfl, reads_update rfl]
      by_cases sameV : v = i
      · subst sameV
        rw [if_pos rfl]
        have users : u ∈ old.usedBy ↔ s.UsedBy v u := by simp [UsedBy, found]
        rw [users, uses u v localU localV List.not_mem_nil]
        by_cases sameU : u = v
        · subst sameU
          rw [if_pos rfl]
          exact iff_of_false notOwnOld notOwn
        · rw [if_neg sameU, added.reads, erased.reads, reads_remove removed]
          grind
      · rw [if_neg sameV]
        by_cases sameU : u = i
        · subst sameU
          rw [if_pos rfl, added.selfUsedBy v localV, erased.selfUsedBy v localV,
            usedBy_remove removed, ← operand v, uses u v localU localV List.not_mem_nil]
          have present := newOperands v
          grind
        · rw [if_neg sameU, added.otherUsedBy u v sameU, erased.otherUsedBy u v sameU,
            usedBy_remove removed, added.reads, erased.reads, reads_remove removed,
            uses u v localU localV List.not_mem_nil]
          grind
    · show last.BlockUsedBy bb u ↔ _
      rw [targets_update (s := last) rfl]
      by_cases sameU : u = i
      · subst sameU
        have old : ({ s with insts := Function.update s.insts u none } :
            ArenaState).BlockUsedBy bb u ↔ s.Targets u bb := targets u bb localU
        rw [if_pos rfl, added.selfBlockUsedBy bb, erased.selfBlockUsedBy bb, old, ← target bb]
        have present := newTos bb
        grind
      · have old : ({ s with insts := Function.update s.insts i none } :
            ArenaState).BlockUsedBy bb u ↔ s.Targets u bb := targets u bb localU
        rw [if_neg sameU, added.otherBlockUsedBy u bb sameU, erased.otherBlockUsedBy u bb sameU,
          old, added.targets, erased.targets, targets_remove removed]
        grind
    · have whole := added.toSameData.fresh (erased.toSameData.fresh (fresh.update known))
      refine ⟨whole.bound, ?_, whole.blocks⟩
      have next : last.nextInst = s.nextInst := added.nextInst.trans erased.nextInst
      rcases fresh.insts with zero | unused
      · exact .inl (next.trans zero)
      · right
        intro u above
        have old := unused u (next ▸ above)
        have differ : u ≠ i := by
          rintro rfl
          simp [old] at known
        have absent : (last.insts u).isSome = false := by
          rw [added.isSome, erased.isSome]
          simp [differ, old]
        simp only [Function.update_of_ne differ]
        exact Option.isSome_eq_false_iff.mp absent |> Option.isNone_iff_eq_none.mp

/-! ## The layout -/

section Layout

variable {L L' : Layout} {b : BasicBlock}

section

variable (agrees : LayoutAgrees L)
include agrees

theorem LayoutAgrees.addBb {place : List BasicBlock → List BasicBlock} (new : bb ∉ L.bbs)
    (members : ∀ b, b ∈ place L.bbs ↔ b ∈ L.bbs ∨ b = bb) : LayoutAgrees (L.addBb bb place) where
  parent inst b := by
    show L.parent inst = some b ↔ b ∈ place L.bbs ∧ inst ∈ Function.update L.insts bb [] b
    rw [agrees.parent, members]
    by_cases same : b = bb
    · subst same
      simp [new]
    · simp [same]
  nodup b member := by
    show (Function.update L.insts bb [] b).Nodup
    by_cases same : b = bb
    · subst same
      simp
    · rw [Function.update_of_ne same]
      exact agrees.nodup b (((members b).mp member).resolve_right same)

theorem LayoutAgrees.addInst {place : List Inst → List Inst} (present : bb ∈ L.bbs)
    (new : L.parent inst = none) (placed : (place (L.insts bb)).Perm (inst :: L.insts bb)) :
    LayoutAgrees (L.addInst bb inst place) := by
  have outside (b : BasicBlock) (member : b ∈ L.bbs) : inst ∉ L.insts b := by
    intro inside
    have := (agrees.parent inst b).mpr ⟨member, inside⟩
    rw [new] at this
    cases this
  refine ⟨fun i b => ?_, fun b member => ?_⟩
  · show Function.update L.parent inst (some bb) i = some b ↔
      b ∈ L.bbs ∧ i ∈ Function.update L.insts bb (place (L.insts bb)) b
    by_cases sameB : b = bb
    · subst sameB
      rw [Function.update_self, placed.mem_iff, List.mem_cons]
      by_cases sameI : i = inst
      · subst sameI
        simp [present]
      · rw [Function.update_of_ne sameI, agrees.parent]
        simp [sameI]
    · rw [Function.update_of_ne sameB]
      by_cases sameI : i = inst
      · subst sameI
        rw [Function.update_self]
        simp only [Option.some.injEq]
        exact iff_of_false (fun same => sameB same.symm) fun inside => outside b inside.1 inside.2
      · rw [Function.update_of_ne sameI, agrees.parent]
  · show (Function.update L.insts bb (place (L.insts bb)) b).Nodup
    by_cases sameB : b = bb
    · subst sameB
      rw [Function.update_self, placed.nodup_iff, List.nodup_cons]
      exact ⟨outside b member, agrees.nodup b member⟩
    · rw [Function.update_of_ne sameB]
      exact agrees.nodup b member

/-- An instruction that is in the layout already ends up in two places. -/
theorem LayoutAgrees.not_addInst {place : List Inst → List Inst} (old : L.parent inst = some b)
    (placed : (place (L.insts bb)).Perm (inst :: L.insts bb)) :
    ¬ LayoutAgrees (L.addInst bb inst place) := by
  intro after
  obtain ⟨member, inside⟩ := (agrees.parent inst b).mp old
  by_cases same : b = bb
  · subst same
    have nodup := after.nodup b member
    simp only [Layout.addInst, Function.update_self] at nodup
    rw [placed.nodup_iff, List.nodup_cons] at nodup
    exact nodup.1 inside
  · have again := (after.parent inst b).mpr ⟨member, by simpa [Layout.addInst, same] using inside⟩
    simp only [Layout.addInst, Function.update_self, Option.some.injEq] at again
    exact same again.symm

theorem LayoutAgrees.removeInst (remove : L.removeInst bb inst = some L') : LayoutAgrees L' := by
  rw [Layout.removeInst] at remove
  split at remove
  case isFalse => cases remove
  case isTrue found =>
  cases remove
  simp only [Layout.containsBb, Bool.and_eq_true, decide_eq_true_eq] at found
  obtain ⟨⟨parent, present⟩, inside⟩ := found
  refine ⟨fun i b => ?_, fun b member => ?_⟩
  · show Function.update L.parent inst none i = some b ↔
      b ∈ L.bbs ∧ i ∈ Function.update L.insts bb ((L.insts bb).erase inst) b
    by_cases sameI : i = inst
    · subst sameI
      rw [Function.update_self]
      refine iff_of_false (by simp) fun other => ?_
      by_cases sameB : b = bb
      · subst sameB
        rw [Function.update_self, (agrees.nodup b present).mem_erase_iff] at other
        exact other.2.1 rfl
      · rw [Function.update_of_ne sameB, ← agrees.parent, parent] at other
        exact sameB (Option.some.inj other).symm
    · rw [Function.update_of_ne sameI, agrees.parent]
      by_cases sameB : b = bb
      · subst sameB
        rw [Function.update_self, (agrees.nodup b present).mem_erase_iff]
        simp [sameI]
      · rw [Function.update_of_ne sameB]
  · show (Function.update L.insts bb ((L.insts bb).erase inst) b).Nodup
    by_cases sameB : b = bb
    · subst sameB
      rw [Function.update_self]
      exact (agrees.nodup b member).erase inst
    · rw [Function.update_of_ne sameB]
      exact agrees.nodup b member

theorem LayoutAgrees.removeBasicblock (remove : L.removeBasicblock bb = some L') :
    LayoutAgrees L' := by
  rw [Layout.removeBasicblock] at remove
  split at remove
  case isFalse => cases remove
  case isTrue present =>
  cases remove
  simp only [Layout.containsBb, decide_eq_true_eq] at present
  refine ⟨fun i b => ?_, fun b member => agrees.nodup b (List.mem_of_mem_filter member)⟩
  show (if i ∈ L.insts bb then none else L.parent i) = some b ↔
    b ∈ L.bbs.filter (· ≠ bb) ∧ i ∈ L.insts b
  rw [List.mem_filter, decide_eq_true_eq]
  split
  case isTrue inside =>
    refine iff_of_false (by simp) fun other => ?_
    have parent := (agrees.parent i bb).mpr ⟨present, inside⟩
    rw [(agrees.parent i b).mpr ⟨other.1.1, other.2⟩] at parent
    exact other.1.2 (Option.some.inj parent)
  case isFalse outside =>
    rw [agrees.parent]
    constructor
    · rintro ⟨member, inside⟩
      refine ⟨⟨member, ?_⟩, inside⟩
      rintro rfl
      exact outside inside
    · exact fun other => ⟨other.1.1, other.2⟩

theorem LayoutAgrees.pushBbBack (push : L.pushBbBack bb = some L') : LayoutAgrees L' := by
  rw [Layout.pushBbBack] at push
  split at push
  case isTrue => cases push
  case isFalse new =>
  cases push
  exact agrees.addBb (by simpa [Layout.containsBb] using new) (by simp)

omit agrees in
/-- A block put beside another one is the only new one. -/
theorem mem_flatMap_beside {bbs : List BasicBlock} {beside : BasicBlock}
    (pair : BasicBlock → List BasicBlock) (present : beside ∈ bbs)
    (isPair : ∀ b, b ∈ pair beside ↔ b = beside ∨ b = bb) (b : BasicBlock) :
    (b ∈ bbs.flatMap fun b => if b = beside then pair b else [b]) ↔ b ∈ bbs ∨ b = bb := by
  rw [List.mem_flatMap]
  constructor
  · rintro ⟨b', member, place⟩
    split at place
    · next same => exact ((isPair b).mp (same ▸ place)).imp_left fun here : b = _ => here ▸ present
    · exact .inl (List.mem_singleton.mp place ▸ member)
  · rintro (member | rfl)
    · refine ⟨b, member, ?_⟩
      split
      · next same => exact same ▸ (isPair beside).mpr (.inl rfl)
      · exact List.mem_singleton_self b
    · exact ⟨beside, present, by simp [isPair]⟩

theorem LayoutAgrees.insertBbAfter {after : BasicBlock}
    (insertBb : L.insertBbAfter after bb = some L') : LayoutAgrees L' := by
  rw [Layout.insertBbAfter] at insertBb
  split at insertBb
  case isTrue => cases insertBb
  case isFalse free =>
  cases insertBb
  simp only [Layout.containsBb, Bool.or_eq_true, decide_eq_true_eq, Bool.not_eq_true',
    decide_eq_false_iff_not, not_or, not_not] at free
  exact agrees.addBb free.1 (mem_flatMap_beside (fun b => [b, bb]) free.2 (by simp))

theorem LayoutAgrees.insertBbBefore {before : BasicBlock}
    (insertBb : L.insertBbBefore before bb = some L') : LayoutAgrees L' := by
  rw [Layout.insertBbBefore] at insertBb
  split at insertBb
  case isTrue => cases insertBb
  case isFalse free =>
  cases insertBb
  simp only [Layout.containsBb, Bool.or_eq_true, decide_eq_true_eq, Bool.not_eq_true',
    decide_eq_false_iff_not, not_or, not_not] at free
  exact agrees.addBb free.1 (mem_flatMap_beside (fun b => [bb, b]) free.2 (by simp [or_comm]))

end

theorem free_of_checked (checked : ¬ (!L.containsBb bb || (L.parent inst).isSome) = true) :
    bb ∈ L.bbs ∧ L.parent inst = none := by
  simpa [Layout.containsBb] using checked

theorem LayoutAgrees.insertInst (agrees : LayoutAgrees L)
    (insert : L.insertInst bb inst = some L') : LayoutAgrees L' := by
  rw [Layout.insertInst] at insert
  split at insert
  case isTrue => cases insert
  case isFalse free =>
  cases insert
  obtain ⟨present, new⟩ := free_of_checked free
  exact agrees.addInst present new (List.perm_append_singleton inst _)

theorem perm_beforeLast (inst : Inst) (insts : List Inst) :
    (insts.dropLast ++ inst :: insts.getLast?.toList).Perm (inst :: insts) := by
  refine List.perm_middle.trans (List.Perm.cons inst ?_)
  rcases List.eq_nil_or_concat insts with rfl | ⟨front, last, rfl⟩
  · rfl
  · simp

theorem LayoutAgrees.insertBeforeTerminator (agrees : LayoutAgrees L)
    (insert : L.insertBeforeTerminator bb inst = some L') : LayoutAgrees L' := by
  rw [Layout.insertBeforeTerminator] at insert
  split at insert
  case isTrue => cases insert
  case isFalse free =>
  cases insert
  obtain ⟨present, new⟩ := free_of_checked free
  exact agrees.addInst present new (perm_beforeLast inst _)

theorem LayoutAgrees.insertInstBefore {before : Inst} (agrees : LayoutAgrees L)
    (insert : L.insertInstBefore before inst = some L') :
    LayoutAgrees L' ↔ L.parent inst = none := by
  rw [Layout.insertInstBefore] at insert
  split at insert
  · cases insert
  · split at insert
    case isFalse => cases insert
    case isTrue found =>
    cases insert
    simp only [Layout.containsBb, Bool.and_eq_true, decide_eq_true_eq] at found
    have placed (insts : List Inst) : (insts.takeWhile (· ≠ before) ++ inst ::
        insts.dropWhile (· ≠ before)).Perm (inst :: insts) := by
      refine List.perm_middle.trans (List.Perm.cons inst ?_)
      rw [List.takeWhile_append_dropWhile]
    constructor
    · intro after
      by_contra old
      obtain ⟨b, old⟩ := Option.ne_none_iff_exists'.mp old
      exact agrees.not_addInst old (placed _) after
    · exact fun new => agrees.addInst found.1 new (placed _)

end Layout

/-! ## Calls -/

/-- The instructions whose data a call removes. -/
def removed (s : ArenaState) : ArenaCall → List Inst
  | .removeInst inst | .removeLayoutInst _ inst | .removeOrphanInst inst => [inst]
  | .removeLayoutBasicblock bb => s.layout.insts bb
  | _ => []

/-- What a call removes has no user left outside. -/
def RemovesUnused (s : ArenaState) (c : ArenaCall) : Prop :=
  ∀ u, ∀ v ∈ s.removed c, s.Reads u v → u ∈ s.removed c

/-- No terminator is removed with a target outside the layout, no instruction is detached from a
local operand or from a target in the layout, and none is inserted that is in the layout. -/
def KeepsUses (s : ArenaState) : ArenaCall → Prop
  | .removeLayoutInst _ inst | .removeOrphanInst inst => TargetsLaidOut s inst
  | .removeLayoutBasicblock bb => ∀ inst ∈ s.layout.insts bb, TargetsLaidOut s inst
  | .detachLayoutInst _ inst =>
    (∀ v : Inst, s.Reads inst v → v.isGlobal) ∧ ∀ bb, s.Targets inst bb → bb ∉ s.layout.bbs
  | .insertInstBefore _ inst => s.layout.parent inst = none
  | _ => True

theorem consistent_of_agrees (agrees : UsesAgree t [] ∧ TargetsAgree t ∧ SameLayout s t)
    (consistent : Consistent s) : Consistent t ∧ Fresh t :=
  ⟨⟨agrees.1, agrees.2.1, agrees.2.2.layout ▸ consistent.layout⟩, agrees.2.2.fresh⟩

theorem allocParams_agrees : {paramsTy : List Ty} → {index : Nat} → {s t : ArenaState} →
    {params : List Inst} → UsesAgree s [] → TargetsAgree s → Fresh s →
    allocParams index paramsTy s = some (t, params) → UsesAgree t [] ∧ TargetsAgree t ∧
      SameLayout s t
  | [], _, _, _, _, uses, targets, fresh, alloc => by
      cases alloc
      exact ⟨uses, targets, fresh, rfl⟩
  | ty :: rest, index, s, t, params, uses, targets, fresh, alloc => by
      obtain ⟨middle, first, others⟩ := Option.bind_eq_some_iff.mp alloc
      obtain ⟨⟨last, more⟩, lasts, same⟩ := Option.map_eq_some_iff.mp others
      cases same
      obtain ⟨uses', targets', layout⟩ := allocLocalInst_agrees fresh uses targets first
      obtain ⟨uses'', targets'', layout'⟩ := allocParams_agrees uses' targets' layout.fresh lasts
      exact ⟨uses'', targets'', layout'.fresh, layout'.layout.trans layout.layout⟩

section

variable (uses : UsesAgree s []) (targets : TargetsAgree s) (fresh : Fresh s)
include uses targets fresh

theorem allocBasicBlock_agrees {params : List Inst} (alloc : s.allocBasicBlock params = some t) :
    UsesAgree t [] ∧ TargetsAgree t ∧ SameLayout s t := by
  rw [allocBasicBlock] at alloc
  split at alloc
  case isTrue => cases alloc
  case isFalse valid =>
  cases alloc
  have unused : s.blocks s.nextBlock = none := fresh.blocks.resolve_left valid _ le_rfl
  refine ⟨uses, fun u bb localU => ?_, ⟨⟨fresh.bound.1, nextHandle_lt _⟩, fresh.insts, ?_⟩, rfl⟩
  · show (s.setBlock s.nextBlock ⟨params, ∅⟩).BlockUsedBy bb u ↔ s.Targets u bb
    rw [blockUsedBy_update, ← targets u bb localU]
    by_cases same : bb = s.nextBlock
    · subst same
      simp [BlockUsedBy, unused]
    · rw [if_neg same]
  · refine (nextHandle_cases fresh.bound.2).imp_right fun next bb above => ?_
    have above' : s.nextBlock + 1 ≤ bb := next ▸ above
    have differ : bb ≠ s.nextBlock := by
      rintro rfl
      exact absurd above' (Nat.not_succ_le_self _)
    simp only [setBlock, Function.update_of_ne differ]
    exact fresh.blocks.resolve_left valid bb (Nat.le_of_succ_le above')

theorem addParam_agrees {ty : Ty} (add : s.addParam bb ty = some t) :
    UsesAgree t [] ∧ TargetsAgree t ∧ SameLayout s t := by
  obtain ⟨block, _, add⟩ := Option.bind_eq_some_iff.mp add
  obtain ⟨middle, alloc, add⟩ := Option.bind_eq_some_iff.mp add
  obtain ⟨later, found, rfl⟩ := Option.map_eq_some_iff.mp add
  obtain ⟨uses', targets', fresh', layout⟩ := allocLocalInst_agrees fresh uses targets alloc
  refine ⟨uses', fun u b localU => ?_, ⟨fresh'.bound, fresh'.insts, ?_⟩, layout⟩
  · rw [blockUsedBy_update]
    refine Iff.trans ?_ (targets' u b localU)
    by_cases same : b = bb
    · subst same
      simp [BlockUsedBy, found]
    · rw [if_neg same]
  · refine fresh'.blocks.imp_right fun unused b above => ?_
    have differ : b ≠ bb := by
      rintro rfl
      simp [unused b above] at found
    simp only [setBlock, Function.update_of_ne differ]
    exact unused b above

theorem allocGlobalInst_agrees {data : InstData} (alloc : s.allocGlobalInst data = some t) :
    UsesAgree t [] ∧ TargetsAgree t ∧ SameLayout s t := by
  rw [allocGlobalInst] at alloc
  split at alloc
  case isTrue => cases alloc
  case isFalse checked =>
  have edited := editAllUsers_edited (marks_insert s.nextGlobal) alloc
  have notLocal (v : Inst) (localV : v.isGlobal = false) : v ∉ data.kind.instUsage := by
    intro member
    apply checked
    simp only [Bool.or_eq_true, List.any_eq_true]
    exact .inr ⟨v, member, by simp [localV]⟩
  have same : SameUses { s with
      globals := Function.update s.globals s.nextGlobal (some ⟨data, ∅⟩)
      nextGlobal := nextHandle s.nextGlobal } t := by
    refine ⟨fun u v _ localV => ?_, fun _ _ => edited.reads, fun u bb _ => ?_,
      fun _ _ => edited.targets⟩
    · by_cases own : u = s.nextGlobal
      · rw [own, edited.selfUsedBy v localV]
        simp [notLocal v localV]
      · exact edited.otherUsedBy u v own
    · by_cases own : u = s.nextGlobal
      · rw [own, edited.selfBlockUsedBy bb]
        simp
      · exact edited.otherBlockUsedBy u bb own
  exact ⟨same.usesAgree uses, same.targetsAgree targets,
    edited.toSameData.fresh ⟨fresh.bound, fresh.insts, fresh.blocks⟩, edited.layout⟩

end

/-- A change of the layout alone. -/
theorem consistent_withLayout {layout : Option Layout} (consistent : Consistent s) (fresh : Fresh s)
    (laidOut : s.withLayout layout = some t) :
    (Consistent t ↔ LayoutAgrees t.layout) ∧ Fresh t := by
  obtain ⟨L, _, rfl⟩ := withLayout_eq laidOut
  exact ⟨⟨fun after => after.layout, fun agrees => ⟨consistent.uses, consistent.targets, agrees⟩⟩,
    fresh.bound, fresh.insts, fresh.blocks⟩

theorem layout_of_withLayout {layout : Option Layout} (laidOut : s.withLayout layout = some t) :
    layout = some t.layout := by
  obtain ⟨L, found, rfl⟩ := withLayout_eq laidOut
  exact found

/-- A layout call that keeps the agreement keeps the state consistent. -/
theorem consistent_layoutCall {layout : Option Layout} (consistent : Consistent s) (fresh : Fresh s)
    (laidOut : s.withLayout layout = some t)
    (agrees : ∀ L, layout = some L → LayoutAgrees L) : Consistent t ∧ Fresh t := by
  obtain ⟨same, fresh'⟩ := consistent_withLayout consistent fresh laidOut
  exact ⟨same.mpr (agrees t.layout (layout_of_withLayout laidOut)), fresh'⟩

theorem DroppedAll.consistent_iff {removed : List Inst} (dropped : DroppedAll removed s t)
    (consistent : Consistent s) (layout : LayoutAgrees t.layout)
    (unused : ∀ u, ∀ v ∈ removed, s.Reads u v → u ∈ removed) :
    Consistent t ↔ ∀ i ∈ removed, TargetsLaidOut s i := by
  obtain ⟨uses, targets⟩ := dropped.agrees consistent.uses consistent.targets unused
  exact ⟨fun after => targets.mp after.targets, fun laidOut => ⟨uses, targets.mpr laidOut, layout⟩⟩

theorem detachLayoutInst_consistent_iff (consistent : Consistent s) (fresh : Fresh s)
    (detach : s.detachLayoutInst bb i = some t) :
    (Consistent t ↔ (∀ v : Inst, s.Reads i v → v.isGlobal) ∧ ∀ bb, s.Targets i bb →
      bb ∉ s.layout.bbs) ∧ Fresh t := by
  obtain ⟨middle, detach, laidOut⟩ := Option.bind_eq_some_iff.mp detach
  obtain ⟨kind, detached⟩ := detachInstUsage_detached detach
  obtain ⟨L, found, rfl⟩ := withLayout_eq laidOut
  have fresh' := detached.toSameData.fresh fresh
  rw [detached.layout] at found
  have operand (v : Inst) : s.Reads i v ↔ v ∈ kind.instUsage := by
    obtain ⟨used, found, rfl⟩ := detached.found
    simp [Reads, found]
  have target (bb : BasicBlock) : s.Targets i bb ↔ bb ∈ kind.bbUsage := by
    obtain ⟨used, found, rfl⟩ := detached.found
    simp [Targets, found]
  refine ⟨⟨fun after => ⟨fun v read => ?_, fun b target' inside => ?_⟩, ?_⟩, fresh'.bound,
    fresh'.insts, fresh'.blocks⟩
  · by_contra localV
    rw [Bool.not_eq_true] at localV
    have used : middle.UsedBy v i :=
      (after.uses i v detached.isLocal localV List.not_mem_nil).mpr (detached.reads.mpr read)
    exact ((detached.usedBy i v localV).mp used).2 ⟨rfl, (operand v).mp read⟩
  · have used : middle.BlockUsedBy b i :=
      (after.targets i b detached.isLocal).mpr (detached.targets.mpr target')
    exact ((detached.blockUsedBy i b).mp used).2 ⟨rfl, (target b).mp target', inside⟩
  · rintro ⟨operands, targets⟩
    refine ⟨fun u v localU localV kept => ?_, fun u b localU => ?_,
      consistent.layout.removeInst found⟩
    · show middle.UsedBy v u ↔ middle.Reads u v
      rw [detached.usedBy u v localV, detached.reads, consistent.uses u v localU localV kept]
      refine and_iff_left_of_imp fun read => ?_
      rintro ⟨rfl, _⟩
      rw [operands v read] at localV
      cases localV
    · show middle.BlockUsedBy b u ↔ middle.Targets u b
      rw [detached.blockUsedBy u b, detached.targets, consistent.targets u b localU]
      refine and_iff_left_of_imp fun target' => ?_
      rintro ⟨rfl, _, inside⟩
      exact targets b target' inside

/-- A call keeps a consistent state consistent exactly under the condition of `KeepsUses`. -/
theorem call_consistent_iff {c : ArenaCall} (consistent : Consistent s) (fresh : Fresh s)
    (unused : s.RemovesUnused c) (call : s.call c = some t) :
    (Consistent t ↔ s.KeepsUses c) ∧ Fresh t := by
  have always (after : Consistent t ∧ Fresh t) : (Consistent t ↔ True) ∧ Fresh t :=
    ⟨iff_true_intro after.1, after.2⟩
  cases c with
  | allocLocalInst data =>
    exact always (consistent_of_agrees
      (allocLocalInst_agrees fresh consistent.uses consistent.targets call) consistent)
  | allocGlobalInst data =>
    exact always (consistent_of_agrees
      (allocGlobalInst_agrees consistent.uses consistent.targets fresh call) consistent)
  | basicBlock paramsTy =>
    rw [ArenaState.call, basicBlock] at call
    split at call
    case isTrue => cases call
    case isFalse =>
    obtain ⟨⟨middle, params⟩, alloc, block⟩ := Option.bind_eq_some_iff.mp call
    obtain ⟨uses, targets, layout⟩ :=
      allocParams_agrees consistent.uses consistent.targets fresh alloc
    obtain ⟨uses', targets', layout'⟩ := allocBasicBlock_agrees uses targets layout.fresh block
    exact always (consistent_of_agrees
      ⟨uses', targets', layout'.fresh, layout'.layout.trans layout.layout⟩ consistent)
  | addParam bb ty =>
    exact always (consistent_of_agrees
      (addParam_agrees consistent.uses consistent.targets fresh call) consistent)
  | pushBbBack bb =>
    exact always (consistent_layoutCall consistent fresh call fun _ =>
      consistent.layout.pushBbBack)
  | insertBbAfter after bb =>
    exact always (consistent_layoutCall consistent fresh call fun _ =>
      consistent.layout.insertBbAfter)
  | insertBbBefore before bb =>
    exact always (consistent_layoutCall consistent fresh call fun _ =>
      consistent.layout.insertBbBefore)
  | insertInst bb inst =>
    exact always (consistent_layoutCall consistent fresh call fun _ =>
      consistent.layout.insertInst)
  | insertBeforeTerminator bb inst =>
    exact always (consistent_layoutCall consistent fresh call
      fun _ => consistent.layout.insertBeforeTerminator)
  | insertInstBefore before inst =>
    obtain ⟨same, fresh'⟩ := consistent_withLayout consistent fresh call
    exact ⟨same.trans (consistent.layout.insertInstBefore (layout_of_withLayout call)), fresh'⟩
  | replaceInstWith inst data =>
    exact always (consistent_of_agrees
      (replaceInstWith_agrees consistent.uses consistent.targets fresh call) consistent)
  | removeInst inst =>
    exact always (consistent_of_agrees
      (removeInst_agrees consistent.uses consistent.targets fresh call) consistent)
  | removeLayoutInst bb inst =>
    obtain ⟨kind, dropped, layout⟩ := removeLayoutInst_dropped call
    refine ⟨?_, dropped.fresh fresh⟩
    rw [dropped.all.consistent_iff consistent (consistent.layout.removeInst layout) unused]
    exact List.forall_mem_singleton
  | detachLayoutInst bb inst => exact detachLayoutInst_consistent_iff consistent fresh call
  | removeOrphanInst inst =>
    obtain ⟨kind, dropped, layout⟩ := removeOrphanInst_dropped call
    refine ⟨?_, dropped.fresh fresh⟩
    rw [dropped.all.consistent_iff consistent (layout ▸ consistent.layout) unused]
    exact List.forall_mem_singleton
  | removeLayoutBasicblock bb =>
    rw [ArenaState.call, removeLayoutBasicblock] at call
    split at call
    case isFalse => cases call
    case isTrue =>
    obtain ⟨middle, remove, laidOut⟩ := Option.bind_eq_some_iff.mp call
    obtain ⟨dropped, layout⟩ := removeOrphanInsts_dropped remove
    obtain ⟨L, found, rfl⟩ := withLayout_eq laidOut
    rw [layout] at found
    have fresh' := dropped.fresh fresh
    have dropped' : DroppedAll (s.layout.insts bb) s { middle with layout := L } := 
      ⟨dropped.isLocal, dropped.gone, dropped.others, dropped.outside, dropped.uses,
        dropped.targets, fun _ => ⟨fresh'.bound, fresh'.insts, fresh'.blocks⟩⟩
    refine ⟨?_, fresh'.bound, fresh'.insts, fresh'.blocks⟩
    exact dropped'.consistent_iff consistent (consistent.layout.removeBasicblock found) unused

/-! ## Sequences of calls -/

/-- Every call of the sequence that returns meets the condition in the state it starts from. -/
def AllCalls (P : ArenaState → ArenaCall → Prop) : List ArenaCall → ArenaState → Prop
  | [], _ => True
  | c :: rest, s => ∀ t, s.call c = some t → P s c ∧ AllCalls P rest t

/-- Every state that the sequence goes through meets the condition. -/
def AllStates (P : ArenaState → Prop) : List ArenaCall → ArenaState → Prop
  | [], s => P s
  | c :: rest, s => P s ∧ ∀ t, s.call c = some t → AllStates P rest t

theorem allStates_consistent_iff : {calls : List ArenaCall} → {s : ArenaState} → Consistent s →
    Fresh s → AllCalls RemovesUnused calls s →
    (AllStates Consistent calls s ↔ AllCalls KeepsUses calls s)
  | [], _, consistent, _, _ => iff_of_true consistent trivial
  | c :: rest, s, consistent, fresh, unused => by
      constructor
      · intro states t call
        obtain ⟨removes, later⟩ := unused t call
        obtain ⟨same, fresh'⟩ := call_consistent_iff consistent fresh removes call
        have after : AllStates Consistent rest t := states.2 t call
        have consistent' : Consistent t := by
          cases rest with
          | nil => exact after
          | cons c' rest => exact after.1
        exact ⟨same.mp consistent', (allStates_consistent_iff consistent' fresh' later).mp after⟩
      · intro keeps
        refine ⟨consistent, fun t call => ?_⟩
        obtain ⟨removes, later⟩ := unused t call
        obtain ⟨same, fresh'⟩ := call_consistent_iff consistent fresh removes call
        obtain ⟨kept, keptLater⟩ := keeps t call
        exact (allStates_consistent_iff (same.mpr kept) fresh' later).mpr keptLater

theorem consistent_empty (globals : Inst → Option UsedInst) (nextGlobal : Nat) :
    Consistent (empty globals nextGlobal) where
  uses u v _ _ _ := by simp [UsedBy, Reads, empty]
  targets u bb _ := by simp [BlockUsedBy, Targets, empty]
  layout := ⟨by simp [empty, Layout.empty], by simp [empty, Layout.empty]⟩

theorem fresh_empty (globals : Inst → Option UsedInst) (nextGlobal : Nat) :
    Fresh (empty globals nextGlobal) :=
  ⟨⟨Nat.one_lt_two_pow (by decide), Nat.one_lt_two_pow (by decide)⟩, .inr fun _ _ => rfl,
    .inr fun _ _ => rfl⟩

/-- From an empty function, a sequence of calls that removes only what is unused outside keeps
uses, targets and the layout consistent throughout. -/
def StaysConsistent (globals : Inst → Option UsedInst) (nextGlobal : Nat) (calls : List ArenaCall) :
    Prop :=
  AllCalls RemovesUnused calls (empty globals nextGlobal) →
    AllStates Consistent calls (empty globals nextGlobal)

/-- That is so exactly for the sequences whose calls keep the uses. -/
theorem staysConsistent_iff (globals : Inst → Option UsedInst) (nextGlobal : Nat)
    (calls : List ArenaCall) : StaysConsistent globals nextGlobal calls ↔
      (AllCalls RemovesUnused calls (empty globals nextGlobal) →
        AllCalls KeepsUses calls (empty globals nextGlobal)) :=
  forall_congr' fun unused =>
    allStates_consistent_iff (consistent_empty globals nextGlobal)
      (fresh_empty globals nextGlobal) unused

/-! ## Three sequences that do not stay consistent -/

def runCalls : List ArenaCall → ArenaState → Option ArenaState
  | [], s => some s
  | c :: rest, s => (s.call c).bind (runCalls rest)

theorem allCalls_append {P : ArenaState → ArenaCall → Prop} {back : List ArenaCall} :
    {front : List ArenaCall} → {s t : ArenaState} → runCalls front s = some t →
    (AllCalls P (front ++ back) s ↔ AllCalls P front s ∧ AllCalls P back t)
  | [], _, _, run => by
      cases run
      simp [AllCalls]
  | c :: front, s, t, run => by
      obtain ⟨middle, call, run⟩ := Option.bind_eq_some_iff.mp run
      simp only [List.cons_append, AllCalls, call, Option.some.injEq, forall_eq']
      rw [allCalls_append run, and_assoc]

/-- A sequence of calls that remove nothing removes only what is unused. -/
theorem allCalls_of_removesNothing : {calls : List ArenaCall} → {s : ArenaState} →
    (∀ c ∈ calls, ∀ s : ArenaState, s.removed c = []) → AllCalls RemovesUnused calls s
  | [], _, _ => trivial
  | c :: rest, s, nothing => by
      intro t _
      refine ⟨fun u v member => ?_,
        allCalls_of_removesNothing fun c' later => nothing c' (List.mem_cons_of_mem c later)⟩
      rw [nothing c List.mem_cons_self s] at member
      cases member

/-- Calls that remove nothing and keep the uses in all states keep the state consistent. -/
theorem runCalls_consistent : {calls : List ArenaCall} → {s t : ArenaState} →
    runCalls calls s = some t → Consistent s → Fresh s →
    (∀ c ∈ calls, ∀ s : ArenaState, s.removed c = [] ∧ s.KeepsUses c) → Consistent t ∧ Fresh t
  | [], _, _, run, consistent, fresh, _ => by
      cases run
      exact ⟨consistent, fresh⟩
  | c :: rest, s, t, run, consistent, fresh, each => by
      obtain ⟨middle, call, run⟩ := Option.bind_eq_some_iff.mp run
      obtain ⟨nothing, keeps⟩ := each c List.mem_cons_self s
      have unused : s.RemovesUnused c := by
        intro u v member
        rw [nothing] at member
        cases member
      obtain ⟨same, fresh'⟩ := call_consistent_iff consistent fresh unused call
      exact runCalls_consistent run (same.mpr keeps) fresh' fun c' later =>
        each c' (List.mem_cons_of_mem c later)

theorem not_staysConsistent {globals : Inst → Option UsedInst} {nextGlobal : Nat}
    {front : List ArenaCall} {c : ArenaCall} {rest : List ArenaCall}
    (run : runCalls front (empty globals nextGlobal) = some s) (returns : s.call c = some t)
    (unused : AllCalls RemovesUnused (front ++ c :: rest) (empty globals nextGlobal))
    (breaks : ¬ s.KeepsUses c) : ¬ StaysConsistent globals nextGlobal (front ++ c :: rest) := by
  intro stays
  have keeps := (allStates_consistent_iff (consistent_empty globals nextGlobal)
    (fresh_empty globals nextGlobal) unused).mp (stays unused)
  exact breaks (((allCalls_append run).mp keeps).2 t returns).1

/-- A jump to block 2, in block 1; block 2 is not in the layout. -/
def jumpOut : List ArenaCall :=
  [.basicBlock [], .basicBlock [], .pushBbBack 1, .allocLocalInst ⟨.unit, .jump 2 []⟩,
    .insertInst 1 1]

/-- `%2 = add %1, %1` in block 1. -/
def addTwice : List ArenaCall :=
  [.basicBlock [], .pushBbBack 1, .allocLocalInst ⟨.int32, .integer 0⟩,
    .allocLocalInst ⟨.int32, .binary .add 1 1⟩, .insertInst 1 2]

/-- Block 2 keeps the removed jump as a user; a detached instruction that is inserted again is no
user of its operand; and an instruction inserted before itself stands in the layout twice. -/
theorem calls_break_consistency :
    ¬ StaysConsistent (fun _ => none) globalIdStart (jumpOut ++ [.removeLayoutInst 1 1]) ∧
      ¬ StaysConsistent (fun _ => none) globalIdStart
        (addTwice ++ [.detachLayoutInst 1 2, .insertInst 1 2]) ∧
      ¬ StaysConsistent (fun _ => none) globalIdStart (addTwice ++ [.insertInstBefore 2 2]) := by
  refine ⟨not_staysConsistent rfl rfl ?_ ?_, not_staysConsistent rfl rfl ?_ ?_,
    not_staysConsistent rfl rfl ?_ ?_⟩
  · refine (allCalls_append rfl).mpr ⟨allCalls_of_removesNothing (by simp [jumpOut, removed]), ?_⟩
    refine fun t _ => ⟨?_, trivial⟩
    rintro u v member ⟨used, found, reads⟩
    by_contra differ
    rw [removed, List.mem_singleton] at differ
    have absent := found.symm.trans (Function.update_of_ne differ _ _)
    cases absent
  · intro laidOut
    have target := laidOut 2 ⟨_, rfl, List.mem_singleton_self 2⟩
    exact absurd target (by decide)
  · exact allCalls_of_removesNothing (by simp [addTwice, removed])
  · intro keeps
    have operand := keeps.1 1 ⟨_, rfl, List.mem_cons_self⟩
    exact absurd operand (by decide)
  · exact allCalls_of_removesNothing (by simp [addTwice, removed])
  · intro new
    cases new

end ArenaState

end AnonCompiler.Ir
