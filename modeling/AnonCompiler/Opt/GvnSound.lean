import AnonCompiler.Opt.GvnLeaders

/-!
# What lies between a leader and the value it replaces

The invariant of the walk over whole runs, and what it gives: a writer on a path
from a leader to the value it replaces is one the walk comes to after the value,
or, for calls, one that drops no leaders of the callee.
-/

set_option autoImplicit false

namespace AnonCompiler.Opt.Gvn

open Ir Lib DomTree

/-! ## The stack of visits -/

/-- The blocks that wait, the next one first. -/
def waiting (visits : List Visit) : List Nat :=
  visits.filterMap fun visit =>
    match visit with
    | .enter id => some id
    | .exit => none

/-- A block that waits is a child of the block whose scope will be the innermost one
when it is entered. -/
def Pending (parent : Nat → Nat) : List Visit → List Nat → Prop
  | [], _ => True
  | .exit :: rest, path => Pending parent rest path.tail
  | .enter id :: rest, path => (∀ top ∈ path.head?, parent id = top) ∧ Pending parent rest path

theorem waiting_enter (ids : List Nat) (rest : List Visit) :
    waiting (ids.map Visit.enter ++ .exit :: rest) = ids ++ waiting rest := by
  induction ids with
  | nil => rfl
  | cons id ids ih => exact congrArg (id :: ·) ih

theorem Pending.enter {parent : Nat → Nat} {ids path : List Nat} {id : Nat} {rest : List Visit}
    (children : ∀ c ∈ ids, parent c = id) (h : Pending parent rest path) :
    Pending parent (ids.map Visit.enter ++ .exit :: rest) (id :: path) := by
  induction ids with
  | nil => exact h
  | cons c ids ih =>
    refine ⟨?_, ih fun c' member => children c' (List.mem_cons_of_mem _ member)⟩
    intro top isTop
    cases isTop
    exact children c (List.mem_cons_self ..)

theorem above_of_chain {parent : Nat → Nat} {id : Nat} {path : List Nat}
    (chain : (id :: path).IsChain fun child top => parent child = top) :
    ∀ other ∈ id :: path, Above parent other id := by
  induction path generalizing id with
  | nil =>
    intro other member
    rw [List.mem_singleton.mp member]
    exact .refl id
  | cons top path ih =>
    intro other member
    obtain ⟨isParent, chain⟩ := List.isChain_cons_cons.mp chain
    rcases List.mem_cons.mp member with rfl | further
    · exact .refl other
    · exact (ih chain other further).trans (isParent ▸ parent_above id)

/-! ## The values of a block -/

section Block

variable {P : Program} {A : EffectAnalysis} {func : Function} {cfg : Cfg} {F : FunctionData}

/-- All values of the blocks, the latest one first. -/
def walked (cfg : Cfg) (F : FunctionData) (ids : List Nat) : List Inst :=
  ids.flatMap fun id => (valuesOf cfg F id).reverse

/-- The walk is in block `id`, and has entered the blocks `earlier` before. -/
structure Inside (cfg : Cfg) (trace : Trace) (id : Nat) (bb : BasicBlock) (earlier : List Nat) :
    Prop where
  isBlock : cfg.alloc[id]? = some bb
  top : trace.path[0]? = some id
  above : ∀ other ∈ trace.path, Above cfg.parent other id
  entered : trace.entered = id :: earlier
  fresh : id ∉ earlier
  undominated : ∀ other ∈ earlier, ¬ Dominates cfg.edge 0 id other
  order : ∃ rest, preorder cfg cfg.alloc.length [0] = (id :: earlier).reverse ++ rest

theorem values_unique (wellFormed : F.WellFormed) {bb bb' : BasicBlock} {x : Inst}
    (inBlock : x ∈ values F bb) (inBlock' : x ∈ values F bb') : bb = bb' := by
  rcases mem_values inBlock with isParam | ⟨insts, block, member⟩ <;>
    rcases mem_values inBlock' with isParam' | ⟨insts', block', member'⟩
  · exact wellFormed.blockParams_unique isParam isParam'
  · exact absurd isParam (wellFormed.not_param (FunctionData.mem_layoutInsts block' member') bb)
  · exact absurd isParam' (wellFormed.not_param (FunctionData.mem_layoutInsts block member) bb')
  · exact wellFormed.block_unique block block' member member'

theorem values_nodup (wellFormed : F.WellFormed) (bb : BasicBlock) : (values F bb).Nodup := by
  refine List.nodup_append.mpr ⟨wellFormed.blockParams_nodup bb, ?_, ?_⟩
  · cases found : F.blockInsts bb with
    | none => exact List.nodup_nil
    | some insts => exact wellFormed.nodup_block found
  · rintro x isParam y inInsts rfl
    cases found : F.blockInsts bb with
    | none => simp [found] at inInsts
    | some insts =>
      rw [found] at inInsts
      exact wellFormed.not_param (FunctionData.mem_layoutInsts found inInsts) bb isParam

theorem mem_walked {ids : List Nat} {x : Inst} :
    x ∈ walked cfg F ids ↔ ∃ id ∈ ids, x ∈ valuesOf cfg F id := by
  simp [walked]

theorem walked_reverse (ids : List Nat) :
    (walked cfg F ids).reverse = ids.reverse.flatMap (valuesOf cfg F) := by
  rw [walked, List.reverse_flatMap]
  refine congrArg (fun f => ids.reverse.flatMap f) (funext fun id => ?_)
  exact List.reverse_reverse _

/-- Where the walk is when it comes to the next value of a block. -/
theorem Inside.here (wellFormed : F.WellFormed) (describes : cfg.Describes F) {trace : Trace}
    {id : Nat} {bb : BasicBlock} {earlier : List Nat} (inside : Inside cfg trace id bb earlier)
    {done todo : List Inst} {value : Inst} (isValues : values F bb = done ++ value :: todo)
    (isSeen : visited trace.seen = done.reverse ++ walked cfg F earlier) :
    Here cfg F trace.path (visited trace.seen) id value := by
  have inBlock : value ∈ values F bb := by simp [isValues]
  have isValuesOf : valuesOf cfg F id = values F bb := by
    rw [valuesOf, inside.isBlock]
    rfl
  refine ⟨inside.top, inside.above, by rw [isValuesOf]; exact inBlock, ?_, ?_, ?_⟩
  · obtain ⟨rest, isOrder⟩ := inside.order
    refine ⟨todo ++ rest.flatMap (valuesOf cfg F), ?_⟩
    rw [visitOrder, isOrder, isSeen, List.reverse_append, walked_reverse]
    simp [isValuesOf, isValues]
  · rw [isSeen, List.mem_append, not_or]
    constructor
    · have nodup := values_nodup wellFormed bb
      rw [isValues] at nodup
      intro again
      exact (List.nodup_append.mp nodup).2.2 value (List.mem_reverse.mp again) value
        (List.mem_cons_self ..) rfl
    · intro again
      obtain ⟨other, isEarlier, inOther⟩ := mem_walked.mp again
      obtain ⟨bb', isOther, inBlock'⟩ := mem_valuesOf.mp inOther
      rw [← values_unique wellFormed inBlock inBlock', ← inside.isBlock] at isOther
      have isId : id < cfg.alloc.length := (List.getElem?_eq_some_iff.mp inside.isBlock).1
      obtain rfl := (List.getElem?_inj isId describes.nodup).mp isOther.symm
      exact inside.fresh isEarlier
  · intro laidOut
    obtain ⟨insts, block, member⟩ :=
      (mem_values inBlock).resolve_left (wellFormed.not_param laidOut bb)
    obtain ⟨pre, post, rfl⟩ := List.append_of_mem member
    have isDone : done = F.blockParams bb ++ pre := by
      have nodup := values_nodup wellFormed bb
      rw [isValues] at nodup
      obtain ⟨-, rest, apart⟩ := List.nodup_append.mp nodup
      have same : done ++ value :: todo = (F.blockParams bb ++ pre) ++ value :: post := by
        rw [← isValues, values, block, List.append_assoc]
        rfl
      have notDone : value ∉ done :=
        fun before => apart value before value (List.mem_cons_self ..) rfl
      exact ((List.append_cons_inj_of_notMem notDone (List.nodup_cons.mp rest).1).mp same).1
    refine ⟨⟨bb, pre, post, inside.isBlock, block, ?_, ?_⟩⟩
    · intro x before
      rw [isSeen, isDone]
      simp [before]
    · intro x isOlder
      rw [isSeen, isDone, List.mem_append, List.mem_reverse, List.mem_append] at isOlder
      rcases isOlder with (isParam | before) | inEarlier
      · exact .inl isParam
      · exact .inr (.inl before)
      · obtain ⟨other, isEarlier, inOther⟩ := mem_walked.mp inEarlier
        exact .inr (.inr ⟨other, inside.undominated other isEarlier, inOther⟩)

/-- Visiting the values of a block, one after the other. -/
theorem Inside.visitAll (wellFormed : F.WellFormed) (describes : cfg.Describes F) {fuel : Nat}
    {id : Nat} {bb : BasicBlock} {earlier : List Nat} {done todo : List Inst} {w w' : Walk}
    (inside : Inside cfg w.trace id bb earlier) (isValues : values F bb = done ++ todo)
    (isSeen : visited w.trace.seen = done.reverse ++ walked cfg F earlier)
    (tables : Tables P A func cfg F w.trace.seen w) (results : Results P A func cfg F w.trace)
    (visits : todo.foldlM (visitValue P A func fuel) w = some w') :
    Tables P A func cfg F w'.trace.seen w' ∧ Results P A func cfg F w'.trace ∧
      visited w'.trace.seen = (values F bb).reverse ++ walked cfg F earlier ∧
      w'.visits = w.visits ∧ w'.trace.path = w.trace.path ∧ w'.trace.entered = w.trace.entered := by
  induction todo generalizing done w with
  | nil =>
    obtain rfl := Option.some.inj visits
    rw [List.append_nil] at isValues
    exact ⟨tables, results, by rw [isSeen, isValues], rfl, rfl, rfl⟩
  | cons value todo ih =>
    rw [List.foldlM_cons] at visits
    obtain ⟨w₁, visit, visits⟩ := Option.bind_eq_some_iff.mp visits
    obtain ⟨kind, isKind, visit⟩ := Option.bind_eq_some_iff.mp visit
    obtain ⟨w₂, visitKind, rfl⟩ := Option.map_eq_some_iff.mp visit
    have atValue := inside.here wellFormed describes isValues isSeen
    obtain ⟨tables₂, results₂, frame⟩ :=
      visitKind_spec wellFormed describes tables results atValue isKind visitKind
    have inside₂ :
        Inside cfg { w₂.trace with seen := (value, kind) :: w₂.trace.seen } id bb earlier :=
      ⟨inside.isBlock, by rw [frame.path]; exact inside.top,
        by rw [frame.path]; exact inside.above,
        frame.entered.trans inside.entered, inside.fresh, inside.undominated, inside.order⟩
    have isSeen₂ : visited ((value, kind) :: w₂.trace.seen) =
        (done ++ [value]).reverse ++ walked cfg F earlier := by
      rw [frame.seen, List.reverse_append]
      exact congrArg (value :: ·) isSeen
    obtain ⟨tables', results', isSeen', sameVisits, samePath, sameEntered⟩ :=
      ih (w := { w₂ with trace := { w₂.trace with seen := (value, kind) :: w₂.trace.seen } })
        inside₂
        (by rw [isValues, List.append_assoc]; rfl) isSeen₂
        (by rw [frame.seen]; exact ⟨tables₂.kept, tables₂.shapes, tables₂.numbers, tables₂.loads,
          tables₂.calls⟩)
        ⟨results₂.loads, results₂.calls, results₂.loadsRecord, results₂.callsRecord⟩ visits
    exact ⟨tables', results', isSeen', sameVisits.trans frame.visits, samePath.trans frame.path,
      sameEntered.trans frame.entered⟩

end Block

/-! ## The invariant -/

section Run

variable {P : Program} {A : EffectAnalysis} {func : Function} {cfg : Cfg} {F : FunctionData}

/-- What holds between the turns of the walk. -/
structure Invariant (P : Program) (A : EffectAnalysis) (func : Function) (cfg : Cfg)
    (F : FunctionData) (w : Walk) : Prop where
  tables : Tables P A func cfg F w.trace.seen w
  results : Results P A func cfg F w.trace
  seen : visited w.trace.seen = walked cfg F w.trace.entered
  stack : w.visits = [.enter 0] ∧ w.trace.entered = [] ∧ w.trace.path = [] ∨
    Lib.Walk cfg.parent cfg.edge w.trace.entered (waiting w.visits)
  pending : Pending cfg.parent w.visits w.trace.path
  chain : w.trace.path.IsChain fun child top => cfg.parent child = top
  nodup : w.trace.entered.Nodup
  known : ∀ id ∈ w.trace.entered, id < cfg.alloc.length
  order : ∀ fuel, w.trace.entered.length ≤ fuel → preorder cfg fuel [0] =
    w.trace.entered.reverse ++ preorder cfg (fuel - w.trace.entered.length) (waiting w.visits)

namespace Invariant

variable {w w' : Walk} {rest : List Visit} {fuel : Nat}

theorem init : Invariant P A func cfg F (.init F) where
  tables := ⟨.refl F, List.forall_mem_nil _, .init, .init, .init⟩
  results :=
    ⟨List.forall_mem_nil _, List.forall_mem_nil _, List.forall_mem_nil _, List.forall_mem_nil _⟩
  seen := rfl
  stack := .inl ⟨rfl, rfl, rfl⟩
  pending := ⟨fun _ isTop => (by cases isTop), trivial⟩
  chain := .nil
  nodup := .nil
  known := List.forall_mem_nil _
  order := fun _ _ => rfl

/-- The scopes and the counter of a block that is entered. -/
theorem tables_enter {seen : List (Inst × InstKind)} (h : Tables P A func cfg F seen w) (id : Nat) :
    Tables P A func cfg F seen (enterBlock cfg w id) := by
  refine ⟨h.kept, h.shapes, h.numbers, ?_, h.calls.enterScope id⟩
  refine Scoped.Placed.mono (h.loads.enterScope id) fun _ other entry ⟨le, leads⟩ => ?_
  by_cases isHeader : cfg.isLoopHeader id = true
  · have moved : (enterBlock cfg w id).storeCounter = w.storeCounter + 1 := if_pos isHeader
    have stale : (entry.2 == w.storeCounter + 1) = false := beq_false_of_ne (by omega)
    rw [moved]
    exact ⟨Nat.le_succ_of_le le, leads.weaken fun _ _ => by rw [stale, Bool.false_and]⟩
  · have same : (enterBlock cfg w id).storeCounter = w.storeCounter := if_neg isHeader
    rw [same]
    exact ⟨le, leads⟩

theorem exitBlock (h : Invariant P A func cfg F w) (isVisits : w.visits = .exit :: rest)
    (exits : Gvn.exitBlock { w with visits := rest } = some w') : Invariant P A func cfg F w' := by
  simp only [Gvn.exitBlock, Option.bind_eq_bind, Option.bind_eq_some_iff] at exits
  obtain ⟨loads, isLoads, calls, isCalls, leaders, -, isW⟩ := exits
  obtain rfl := Option.some.inj isW
  have pending := h.pending
  have order := h.order
  rw [isVisits] at pending order
  refine ⟨⟨h.tables.kept, h.tables.shapes, h.tables.numbers,
    Scoped.Placed.exitScope h.tables.loads isLoads, Scoped.Placed.exitScope h.tables.calls isCalls⟩,
    ⟨h.results.loads, h.results.calls, h.results.loadsRecord, h.results.callsRecord⟩, h.seen,
    ?_, pending, h.chain.tail, h.nodup, h.known, order⟩
  rcases h.stack with ⟨start, -⟩ | walk
  · rw [isVisits] at start
    cases start
  · rw [isVisits] at walk
    exact .inr walk

/-- The blocks entered so far when the walk enters the next one. -/
theorem enters {id : Nat} (describes : cfg.Describes F) (h : Invariant P A func cfg F w)
    (isVisits : w.visits = .enter id :: rest) :
    Reachable cfg.edge 0 id ∧ id ∉ w.trace.entered ∧
      (∀ other ∈ w.trace.entered, ¬ Dominates cfg.edge 0 id other) ∧
      Lib.Walk cfg.parent cfg.edge (id :: w.trace.entered) (cfg.children id ++ waiting rest) := by
  rcases h.stack with ⟨start, isEntered, -⟩ | walk
  · rw [isVisits] at start
    cases start
    rw [isEntered]
    refine ⟨.refl, List.not_mem_nil, List.forall_mem_nil _, ?_⟩
    have started := Lib.Walk.start describes.numbered
    rw [← List.append_nil (cfg.children 0)] at started
    exact started
  · rw [isVisits] at walk
    obtain ⟨reached, -, fresh, -⟩ := walk.waiting id (List.mem_cons_self ..)
    refine ⟨reached, fresh, ?_, walk.enter describes.numbered⟩
    intro other isEntered dominates
    exact fresh (walk.dominators other isEntered id reached dominates)

section

variable (wellFormed : F.WellFormed) (describes : cfg.Describes F)
include wellFormed describes

theorem enter {w w' : Walk} {id fuel : Nat} {bb : BasicBlock} {insts : List Inst}
    {rest : List Visit} (h : Invariant P A func cfg F w) (isVisits : w.visits = .enter id :: rest)
    (isBlock : cfg.alloc[id]? = some bb) (isInsts : w.data.blockInsts bb = some insts)
    (visits : (w.data.blockParams bb ++ insts).foldlM (visitValue P A func fuel)
      (enterBlock cfg { w with visits := rest } id) = some w') :
    Invariant P A func cfg F w' := by
  obtain ⟨reached, fresh, undominated, walk⟩ := h.enters describes isVisits
  obtain ⟨isTop, pending⟩ : (∀ top ∈ w.trace.path.head?, cfg.parent id = top) ∧
      Pending cfg.parent rest w.trace.path := by
    have pending := h.pending
    rw [isVisits] at pending
    exact pending
  have isValues : w.data.blockParams bb ++ insts = values F bb := by
    rw [h.tables.kept.blockInsts] at isInsts
    rw [values, isInsts, h.tables.kept.params]
    rfl
  have isValuesOf : valuesOf cfg F id = values F bb := by
    rw [valuesOf, isBlock]
    rfl
  have chain : (id :: w.trace.path).IsChain fun child top => cfg.parent child = top :=
    List.isChain_cons.mpr ⟨isTop, h.chain⟩
  have nodup : (id :: w.trace.entered).Nodup := List.nodup_cons.mpr ⟨fresh, h.nodup⟩
  have known : ∀ other ∈ id :: w.trace.entered, other < cfg.alloc.length :=
    List.forall_mem_cons.mpr ⟨describes.reachable.mp reached, h.known⟩
  have order : ∀ fuel, (id :: w.trace.entered).length ≤ fuel →
      preorder cfg fuel [0] = (id :: w.trace.entered).reverse ++
        preorder cfg (fuel - (id :: w.trace.entered).length) (cfg.children id ++ waiting rest) := by
    intro fuel enough
    rw [List.length_cons] at enough ⊢
    have isStack : waiting w.visits = id :: waiting rest := by
      rw [isVisits]
      rfl
    have isNext : fuel - w.trace.entered.length = fuel - (w.trace.entered.length + 1) + 1 :=
      by omega
    rw [h.order fuel (by omega), isStack, isNext, preorder, List.reverse_cons, List.append_assoc]
    rfl
  have inside : Inside cfg (enterBlock cfg { w with visits := rest } id).trace id bb
      w.trace.entered := by
    refine ⟨isBlock, rfl, above_of_chain chain, rfl, fresh, undominated, _,
      order cfg.alloc.length ?_⟩
    have le := (nodup.subperm fun other member => List.mem_range.mpr (known other member)).length_le
    rwa [List.length_range] at le
  have nothing : values F bb = [] ++ (w.data.blockParams bb ++ insts) := isValues.symm
  obtain ⟨tables, results, isSeen, sameVisits, samePath, sameEntered⟩ :=
    inside.visitAll wellFormed describes nothing h.seen
      (tables_enter (w := { w with visits := rest })
        ⟨h.tables.kept, h.tables.shapes, h.tables.numbers, h.tables.loads, h.tables.calls⟩ id)
      ⟨h.results.loads, h.results.calls, h.results.loadsRecord, h.results.callsRecord⟩ visits
  have isStack : waiting w'.visits = cfg.children id ++ waiting rest := by
    rw [sameVisits]
    exact waiting_enter (cfg.children id) rest
  have children : ∀ c ∈ cfg.children id, cfg.parent c = id := fun c member =>
    (describes.numbered.mem_children.mp member).2.2
  refine ⟨tables, results, ?_, .inr ?_, ?_, ?_, ?_, ?_, ?_⟩
  · rw [isSeen, sameEntered, ← isValuesOf]
    rfl
  · rw [isStack, sameEntered]
    exact walk
  · rw [sameVisits, samePath]
    exact .enter children pending
  · rw [samePath]
    exact chain
  · rw [sameEntered]
    exact nodup
  · rw [sameEntered]
    exact known
  · rw [sameEntered, isStack]
    exact order

theorem turn (h : Invariant P A func cfg F w) (turns : Gvn.turn P A func cfg fuel w = some w') :
    Invariant P A func cfg F w' := by
  unfold Gvn.turn at turns
  split at turns
  · obtain rfl := Option.some.inj turns
    exact h
  · next rest isVisits => exact h.exitBlock isVisits turns
  · next id rest isVisits =>
      obtain ⟨bb, isBlock, turns⟩ := Option.bind_eq_some_iff.mp turns
      obtain ⟨insts, isInsts, turns⟩ := Option.bind_eq_some_iff.mp turns
      exact h.enter wellFormed describes isVisits isBlock isInsts turns

/-- Over a whole run. -/
theorem walk {turns : Nat} (walks : Gvn.walk P A func cfg fuel F turns = some w) :
    Invariant P A func cfg F w := by
  induction turns generalizing w with
  | zero =>
    obtain rfl := Option.some.inj walks
    exact .init
  | succ turns ih =>
    obtain ⟨w₁, walks, isTurn⟩ := Option.bind_eq_some_iff.mp walks
    exact (ih walks).turn wellFormed describes isTurn

end

end Invariant

/-! ## Loads -/

/-- The instruction is a store, a `MemZero` or a call that may write memory. -/
def MayWrite (A : EffectAnalysis) (F : FunctionData) (inst : Inst) : Prop :=
  ∃ kind, F.kind inst = some kind ∧ writes A kind = true

variable {kind kind' : InstKind} {inst : Inst} {callee : Function} {target : AbstractObject}

theorem writes_of_shape (same : shape kind = shape kind') : writes A kind = writes A kind' := by
  cases kind <;> cases kind' <;> cases same <;> rfl

/-- What comes before the value is in the record of the replacement, with its
shape. -/
theorem Recorded.mem {r : Replacement} (h : Recorded cfg F r) (isKind : F.kind inst = some kind)
    (before : ComesBefore cfg F inst r.value) :
    ∃ kind', (inst, kind') ∈ r.seen ∧ shape kind' = shape kind := by
  obtain ⟨rest, isOrder⟩ := h.order
  obtain ⟨⟨_, kind'⟩, member, rfl⟩ := List.mem_map.mp (List.mem_reverse.mp (before.mem isOrder))
  refine ⟨kind', member, ?_⟩
  have isShape := h.shapes _ member
  rw [isKind] at isShape
  exact (Option.some.inj isShape).symm

/-- Between a load and the leader that replaces it nothing writes memory, if and only
if everything there that does comes before the load in the order of the dominator
tree. -/
theorem load_unwritten_iff {steps fuel turns : Nat} {w : Walk} {r : Replacement}
    (wellFormed : F.WellFormed) (built : Cfg.build F steps = some cfg)
    (walks : walk P A func cfg fuel F turns = some w) (replaced : r ∈ w.trace.loads) :
    (∀ inst, Between F r.leader r.value inst → ¬ MayWrite A F inst) ↔
      ∀ inst, Between F r.leader r.value inst → MayWrite A F inst →
        ComesBefore cfg F inst r.value := by
  have results := (Invariant.walk wellFormed (Cfg.describes built) walks).results
  constructor
  · intro unwritten inst between writer
    exact absurd writer (unwritten inst between)
  · rintro early inst between ⟨kind, isKind, isWrite⟩
    obtain ⟨kind', seen, same⟩ :=
      (results.loadsRecord r replaced).mem isKind (early inst between ⟨kind, isKind, isWrite⟩)
    have missed := (results.loads r replaced).missed between seen
    rw [writes_of_shape same, isWrite] at missed
    cases missed

/-- `x = *p; if (c) else { *p = 7 }; return x + *p`. -/
def diamond : Listing where
  retTy := .int32
  name := "diamond"
  paramsTy := [.int32, .pointer .int32]
  layout := [(0, [10, 11]), (1, [12]), (2, [13, 14]), (3, [15, 16, 17])]
  insts := [(0, ⟨.int32, .blockArgRef 0⟩), (1, ⟨.pointer .int32, .blockArgRef 1⟩),
    (2, ⟨.int32, .integer 7⟩),
    (10, ⟨.int32, .load 1⟩), (11, ⟨.unit, .branch 0 1 [] 2 []⟩), (12, ⟨.unit, .jump 3 []⟩),
    (13, ⟨.unit, .store 2 1⟩), (14, ⟨.unit, .jump 3 []⟩), (15, ⟨.int32, .load 1⟩),
    (16, ⟨.int32, .binary .add 10 15⟩), (17, ⟨.unit, .ret (some 16)⟩)]
  nextInst := 18
  blockParams := [(0, [0, 1])]
  nextBlock := 4

/-- A program of functions without effects. -/
def noEffects : EffectAnalysis :=
  ⟨fun _ _ => none, fun _ => ⟨[], [], false, false, false, false⟩, fun _ _ => none⟩

/-- The join is visited before the arm that stores. -/
theorem diamond_replaced : ∃ cfg w r, Cfg.build diamond.toFunctionData 40 = some cfg ∧
    walk (.ofListings [diamond] [] 0) noEffects 0 cfg 10 diamond.toFunctionData 12 = some w ∧
    r ∈ w.trace.loads ∧ r.leader = 10 ∧ r.value = 15 := by
  have run : ((Cfg.build diamond.toFunctionData 40).bind fun cfg =>
      (walk (.ofListings [diamond] [] 0) noEffects 0 cfg 10 diamond.toFunctionData 12).map fun w =>
        w.trace.loads.map fun r => (r.leader, r.value)) = some [(10, 15)] := by decide +kernel
  obtain ⟨cfg, built, run⟩ := Option.bind_eq_some_iff.mp run
  obtain ⟨w, walks, isLoads⟩ := Option.map_eq_some_iff.mp run
  have member : (10, 15) ∈ w.trace.loads.map fun r => (r.leader, r.value) := by simp [isLoads]
  obtain ⟨r, replaced, same⟩ := List.mem_map.mp member
  obtain ⟨isLeader, isValue⟩ := Prod.mk.inj same
  exact ⟨cfg, w, r, built, walks, replaced, isLeader, isValue⟩

theorem diamond_wellFormed : diamond.toFunctionData.WellFormed :=
  Listing.wellFormed_toFunctionData (by decide +kernel)

theorem load_unwritten_iff_diamond : ∃ cfg w r, Cfg.build diamond.toFunctionData 40 = some cfg ∧
    walk (.ofListings [diamond] [] 0) noEffects 0 cfg 10 diamond.toFunctionData 12 = some w ∧
    r ∈ w.trace.loads ∧
    ((∀ inst, Between diamond.toFunctionData r.leader r.value inst →
      ¬ MayWrite noEffects diamond.toFunctionData inst) ↔
    ∀ inst, Between diamond.toFunctionData r.leader r.value inst →
      MayWrite noEffects diamond.toFunctionData inst →
        ComesBefore cfg diamond.toFunctionData inst r.value) := by
  obtain ⟨cfg, w, r, built, walks, replaced, -⟩ := diamond_replaced
  exact ⟨cfg, w, r, built, walks, replaced,
    load_unwritten_iff diamond_wellFormed built walks replaced⟩

/-- The store lies between the two loads. -/
theorem load_replaced_past_store : ∃ cfg w r, Cfg.build diamond.toFunctionData 40 = some cfg ∧
    walk (.ofListings [diamond] [] 0) noEffects 0 cfg 10 diamond.toFunctionData 12 = some w ∧
    r ∈ w.trace.loads ∧ diamond.toFunctionData.kind r.leader = some (.load 1) ∧
    diamond.toFunctionData.kind r.value = some (.load 1) ∧
    ∃ inst, Between diamond.toFunctionData r.leader r.value inst ∧
      MayWrite noEffects diamond.toFunctionData inst := by
  obtain ⟨cfg, w, r, built, walks, replaced, isLeader, isValue⟩ := diamond_replaced
  refine ⟨cfg, w, r, built, walks, replaced, by rw [isLeader]; rfl, by rw [isValue]; rfl, 13, ?_,
    _, rfl, rfl⟩
  rw [isLeader, isValue]
  have first : FlowsAvoiding diamond.toFunctionData 10 10 11 :=
    ⟨⟨0, [10, 11], rfl, .inl ⟨[], [], rfl⟩⟩, by decide⟩
  have second : FlowsAvoiding diamond.toFunctionData 10 11 13 :=
    ⟨⟨0, [10, 11], rfl, .inr ⟨rfl, ⟨0, 11, .onFalse, 2, []⟩, by decide, [14], rfl⟩⟩, by decide⟩
  have third : FlowsAvoiding diamond.toFunctionData 10 13 14 :=
    ⟨⟨2, [13, 14], rfl, .inl ⟨[], [], rfl⟩⟩, by decide⟩
  have fourth : FlowsAvoiding diamond.toFunctionData 10 14 15 :=
    ⟨⟨2, [13, 14], rfl, .inr ⟨rfl, ⟨2, 14, .jump, 3, []⟩, by decide, [16, 17], rfl⟩⟩, by decide⟩
  exact ⟨.tail (.single first) second, .tail (.single third) fourth⟩

/-! ## Calls -/

/-- The address an instruction writes to. -/
def writtenAt : InstKind → Option Inst
  | .store _ dest | .memZero dest _ => some dest
  | _ => none

/-- The instruction may write the object, as the summaries have it. -/
def WritesObject (P : Program) (A : EffectAnalysis) (func : Function) (F : FunctionData)
    (inst : Inst) (target : AbstractObject) : Prop :=
  ∃ kind, F.kind inst = some kind ∧
    match kind with
    | .store _ dest | .memZero dest _ => A.PointsTo P F func dest target
    | .call sibling _ => A.MayWriteObject sibling target
    | _ => False

/-- The summaries name the same base object for an address and for the one that
stands in its place when the walk comes to the instruction. -/
def BasesAgree (P : Program) (A : EffectAnalysis) (func : Function) (F : FunctionData)
    (seen : List (Inst × InstKind)) : Prop :=
  ∀ x ∈ seen, ((F.kind x.1).bind writtenAt).map (A.baseOf P F func) =
    (writtenAt x.2).map (A.baseOf P F func)

/-- If the instruction is a call, it may write something that it reads itself, and
the object does not lie in the frame of another function. -/
def Attends (A : EffectAnalysis) (func : Function) (F : FunctionData) (inst : Inst)
    (target : AbstractObject) : Prop :=
  ∀ {sibling args}, F.kind inst = some (.call sibling args) →
    hasConflict A func sibling = true ∧ target.Visible func

theorem conflicts_of_object {sibling : Function} (writes : A.MayWriteObject sibling target)
    (reads : A.MayReadObject callee target) (visible : target.Visible func) :
    conflicts A func sibling callee = true := by
  unfold conflicts
  split
  · next roots isRoots =>
      refine EffectAnalysis.callMayWrite_of_object writes ?_
      intro list same
      obtain rfl := Option.some.inj same
      exact EffectAnalysis.mem_callReadRoots visible reads isRoots
  · rcases writes with anything | ⟨object, member, -⟩
    · simp [FunctionEffects.mayWriteMemory, anything]
    · simp [FunctionEffects.mayWriteMemory, List.ne_nil_of_mem member]

/-- The walk drops the leaders that read what the instruction writes. -/
theorem drops_of_object (isKind : F.kind inst = some kind)
    (writes : WritesObject P A func F inst target) (reads : A.MayReadObject callee target)
    (attends : Attends A func F inst target) (sameShape : shape kind' = shape kind)
    (sameBase : (writtenAt kind).map (A.baseOf P F func) =
    (writtenAt kind').map (A.baseOf P F func)) : drops P A func F callee kind' = true := by
  obtain ⟨kind, isKind', writes⟩ := writes
  obtain rfl := Option.some.inj (isKind.symm.trans isKind')
  have atAddress : ∀ {dest dest' : Inst}, A.baseOf P F func dest = A.baseOf P F func dest' →
      A.PointsTo P F func dest target → mayRead P A func F dest' callee = true := by
    intro dest dest' same points
    refine EffectAnalysis.callMayRead_of_object reads fun list isList => points list ?_
    rw [← isList, EffectAnalysis.targetsOf, EffectAnalysis.targetsOf, same]
  cases kind with
  | store | memZero =>
    cases kind' <;> cases sameShape
    exact atAddress (Option.some.inj sameBase) writes
  | call sibling args =>
    cases kind' <;> cases sameShape
    obtain ⟨conflict, visible⟩ := attends isKind
    exact Bool.and_eq_true_iff.mpr ⟨conflict, conflicts_of_object writes reads visible⟩
  | _ => exact writes.elim

/-- Between a call and the leader that replaces it nothing writes an object the callee
may read, if and only if everything there that does comes before the call in the order
of the dominator tree, and every call there that does is one the walk attends to. -/
theorem call_unwritten_iff {steps fuel turns : Nat} {w : Walk} {r : Replacement} {callee : Function}
    {args : List Inst} (wellFormed : F.WellFormed) (built : Cfg.build F steps = some cfg)
    (walks : walk P A func cfg fuel F turns = some w) (replaced : r ∈ w.trace.calls)
    (isCall : F.kind r.value = some (.call callee args)) (agree : BasesAgree P A func F r.seen) :
    (∀ inst target, Between F r.leader r.value inst → WritesObject P A func F inst target →
      ¬ A.MayReadObject callee target) ↔
    ∀ inst target, Between F r.leader r.value inst → WritesObject P A func F inst target →
      A.MayReadObject callee target → ComesBefore cfg F inst r.value ∧
        Attends A func F inst target := by
  have results := (Invariant.walk wellFormed (Cfg.describes built) walks).results
  obtain ⟨callee', isShape, justified⟩ := results.calls r replaced
  rw [isCall] at isShape
  cases isShape
  constructor
  · intro unwritten inst target between writes reads
    exact absurd reads (unwritten inst target between writes)
  · intro handled inst target between isWrite reads
    obtain ⟨early, attends⟩ := handled inst target between isWrite reads
    have ⟨kind, isKind, _⟩ := isWrite
    obtain ⟨kind', seen, same⟩ := (results.callsRecord r replaced).mem isKind early
    have sameBase := agree _ seen
    rw [isKind, Option.bind_some] at sameBase
    have missed := justified.missed between seen
    rw [drops_of_object isKind isWrite reads attends same sameBase] at missed
    cases missed

/-- `x = get(); set(); return x + get()`. -/
def caller : Listing where
  retTy := .int32
  name := "main"
  paramsTy := []
  layout := [(0, [10, 11, 12, 13, 14])]
  insts := [(10, ⟨.int32, .call 1 []⟩), (11, ⟨.unit, .call 2 []⟩), (12, ⟨.int32, .call 1 []⟩),
    (13, ⟨.int32, .binary .add 10 12⟩), (14, ⟨.unit, .ret (some 13)⟩)]
  nextInst := 15
  blockParams := []
  nextBlock := 1

/-- `return a`. -/
def getter : Listing where
  retTy := .int32
  name := "get"
  paramsTy := []
  layout := [(0, [0, 1])]
  insts := [(0, ⟨.int32, .load globalIdStart⟩), (1, ⟨.unit, .ret (some 0)⟩)]
  nextInst := 2
  blockParams := []
  nextBlock := 1

/-- `a = 7`. -/
def setter : Listing where
  retTy := .unit
  name := "set"
  paramsTy := []
  layout := [(0, [1, 2])]
  insts :=
    [(0, ⟨.int32, .integer 7⟩), (1, ⟨.unit, .store 0 globalIdStart⟩), (2, ⟨.unit, .ret none⟩)]
  nextInst := 3
  blockParams := []
  nextBlock := 1

def callerProgram : Program :=
  .ofListings [caller, getter, setter]
    [(globalIdStart, ⟨.pointer .int32, .globalAlloc (globalIdStart + 1)⟩),
      (globalIdStart + 1, ⟨.int32, .integer 1⟩)] 0

/-- `get` reads the global, `set` writes it, `main` does both. -/
def callerEffects : EffectAnalysis where
  baseTable := fun _ _ => none
  effects := fun func =>
    ⟨if func = 2 then [] else [.global globalIdStart],
      if func = 1 then [] else [.global globalIdStart], false, false, false, false⟩
  pointsTo := fun _ _ => none

theorem caller_replaced : ∃ cfg w r, Cfg.build caller.toFunctionData 10 = some cfg ∧
    walk callerProgram callerEffects 0 cfg 10 caller.toFunctionData 2 = some w ∧
    r ∈ w.trace.calls ∧ r.leader = 10 ∧ r.value = 12 ∧
      r.seen = [(11, .call 2 []), (10, .call 1 [])] := by
  have run : ((Cfg.build caller.toFunctionData 10).bind fun cfg =>
      (walk callerProgram callerEffects 0 cfg 10 caller.toFunctionData 2).map fun w =>
        w.trace.calls.map fun r => (r.leader, r.value, r.seen)) =
      some [(10, 12, [(11, .call 2 []), (10, .call 1 [])])] := by decide +kernel
  obtain ⟨cfg, built, run⟩ := Option.bind_eq_some_iff.mp run
  obtain ⟨w, walks, isCalls⟩ := Option.map_eq_some_iff.mp run
  have member : (10, 12, [(11, .call 2 []), (10, .call 1 [])]) ∈
      w.trace.calls.map fun r => (r.leader, r.value, r.seen) := by simp [isCalls]
  obtain ⟨r, replaced, same⟩ := List.mem_map.mp member
  obtain ⟨isLeader, same⟩ := Prod.mk.inj same
  obtain ⟨isValue, isSeen⟩ := Prod.mk.inj same
  exact ⟨cfg, w, r, built, walks, replaced, isLeader, isValue, isSeen⟩

theorem caller_wellFormed : caller.toFunctionData.WellFormed :=
  Listing.wellFormed_toFunctionData (by decide +kernel)

theorem call_unwritten_iff_caller : ∃ cfg w r, Cfg.build caller.toFunctionData 10 = some cfg ∧
    walk callerProgram callerEffects 0 cfg 10 caller.toFunctionData 2 = some w ∧ r ∈ w.trace.calls ∧
    ((∀ inst target, Between caller.toFunctionData r.leader r.value inst →
      WritesObject callerProgram callerEffects 0 caller.toFunctionData inst target →
        ¬ callerEffects.MayReadObject 1 target) ↔
    ∀ inst target, Between caller.toFunctionData r.leader r.value inst →
      WritesObject callerProgram callerEffects 0 caller.toFunctionData inst target →
        callerEffects.MayReadObject 1 target → ComesBefore cfg caller.toFunctionData inst r.value ∧
          Attends callerEffects 0 caller.toFunctionData inst target) := by
  obtain ⟨cfg, w, r, built, walks, replaced, -, isValue, isSeen⟩ := caller_replaced
  have isCall : caller.toFunctionData.kind r.value = some (.call 1 []) := by
    rw [isValue]
    rfl
  have agree : BasesAgree callerProgram callerEffects 0 caller.toFunctionData r.seen := by
    rw [isSeen]
    simp only [BasesAgree, List.forall_mem_cons]
    exact ⟨rfl, rfl, List.forall_mem_nil _⟩
  exact ⟨cfg, w, r, built, walks, replaced,
    call_unwritten_iff caller_wellFormed built walks replaced isCall agree⟩

/-- A function that writes what it does not read lies between the calls. -/
theorem call_replaced_past_writer : ∃ cfg w r, Cfg.build caller.toFunctionData 10 = some cfg ∧
    walk callerProgram callerEffects 0 cfg 10 caller.toFunctionData 2 = some w ∧
    r ∈ w.trace.calls ∧ caller.toFunctionData.kind r.leader = some (.call 1 []) ∧
    caller.toFunctionData.kind r.value = some (.call 1 []) ∧
    ∃ inst target, Between caller.toFunctionData r.leader r.value inst ∧
      WritesObject callerProgram callerEffects 0 caller.toFunctionData inst target ∧
      callerEffects.MayReadObject 1 target := by
  obtain ⟨cfg, w, r, built, walks, replaced, isLeader, isValue, -⟩ := caller_replaced
  refine ⟨cfg, w, r, built, walks, replaced, by rw [isLeader]; rfl, by rw [isValue]; rfl, 11,
    .global globalIdStart, ?_, ⟨_, rfl, .inr ⟨.global globalIdStart, by decide, rfl⟩⟩,
    .inr ⟨.global globalIdStart, by decide, rfl⟩⟩
  rw [isLeader, isValue]
  have first : FlowsAvoiding caller.toFunctionData 10 10 11 :=
    ⟨⟨0, [10, 11, 12, 13, 14], rfl, .inl ⟨[], [12, 13, 14], rfl⟩⟩, by decide⟩
  have second : FlowsAvoiding caller.toFunctionData 10 11 12 :=
    ⟨⟨0, [10, 11, 12, 13, 14], rfl, .inl ⟨[10], [13, 14], rfl⟩⟩, by decide⟩
  exact ⟨.single first, .single second⟩

end Run

end AnonCompiler.Opt.Gvn
