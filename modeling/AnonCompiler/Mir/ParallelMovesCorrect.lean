import AnonCompiler.Mir.ParallelMoves

/-!
# Parallel moves are scheduled correctly

The walk keeps a prefix of the final sequence that already has the effect of a parallel
assignment, on the moves that are done (`Walk.Scheduled`).  A move joins them once the move
that overwrites its source is done.  In a cycle no such order exists: the move on top of the
stack reads the scratch location instead, until its own source is saved there.
-/

set_option autoImplicit false

namespace AnonCompiler.Mir

open AnonCompiler.Lib

/-! ## Keys -/

theorem Allocation.bits_eq (a : Allocation) : a.bits = a.kind.code * 2 ^ 29 + a.index := by
  have small : a.index < 2 ^ 29 := a.valid.trans (by decide)
  rw [bits, ← Nat.shiftLeft_add_eq_or_of_lt small, Nat.shiftLeft_eq]

theorem AllocationKind.code_injective : Function.Injective AllocationKind.code := by
  intro k k' same
  cases k <;> cases k' <;> first | rfl | cases same

theorem Allocation.bits_injective : Function.Injective Allocation.bits := by
  intro a b same
  rw [bits_eq, bits_eq] at same
  have small := a.valid
  have small' := b.valid
  obtain ⟨kind, index, valid⟩ := a
  obtain ⟨kind', index', valid'⟩ := b
  have codes : kind.code = kind'.code := by
    simp only at same small small'
    omega
  obtain rfl := AllocationKind.code_injective codes
  obtain rfl : index = index' := by
    simp only at same
    omega
  rfl

theorem Allocation.bits_lt (a : Allocation) : a.bits < 2 ^ 32 := by
  have small := a.valid
  have code : a.kind.code ≤ 2 := by cases a.kind <;> decide
  rw [bits_eq]
  omega

variable {T : Type}

theorem Move.key_eq (move : Move T) : move.key = move.dst.bits * 2 ^ 32 + move.src.bits := by
  rw [key, u64Key, Nat.or_comm, ← Nat.shiftLeft_add_eq_or_of_lt move.src.bits_lt, Nat.shiftLeft_eq]

theorem Move.dst_le_of_key_le {a b : Move T} (le : a.key ≤ b.key) : a.dst.bits ≤ b.dst.bits := by
  rw [key_eq, key_eq] at le
  have small := a.src.bits_lt
  have small' := b.src.bits_lt
  omega

/-! ## The prepared moves -/

/-- The destinations are pairwise different, up to moves that are repeated. -/
def DistinctDests (moves : List (Move T)) : Prop :=
  ∀ a ∈ moves, ∀ b ∈ moves, a.dst = b.dst → a = b

section Prepare

variable [DecidableEq T] {moves : List (Move T)}

theorem mem_dedupAfter (last move : Move T) (rest : List (Move T)) :
    move ∈ last :: dedupAfter last rest ↔ move ∈ last :: rest := by
  induction rest generalizing last with
  | nil => rfl
  | cons next rest ih =>
    rw [dedupAfter]
    split
    · next same =>
        rw [ih, same]
        simp
    · rw [List.mem_cons, ih next, List.mem_cons (l := next :: rest)]

theorem mem_dedup (move : Move T) : move ∈ dedup moves ↔ move ∈ moves := by
  cases moves with
  | nil => rfl
  | cons first rest => exact mem_dedupAfter first move rest

theorem dedupAfter_increasing {last : Move T} {rest : List (Move T)}
    (sorted : (last :: rest).Pairwise fun a b => a.dst.bits ≤ b.dst.bits)
    (distinct : DistinctDests (last :: rest)) :
    (last :: dedupAfter last rest).Pairwise fun a b => a.dst.bits < b.dst.bits := by
  induction rest generalizing last with
  | nil => exact List.pairwise_singleton _ _
  | cons next rest ih =>
    obtain ⟨first, later⟩ := List.pairwise_cons.mp sorted
    rw [dedupAfter]
    split
    · next same =>
        subst same
        exact ih later fun a inA b inB => distinct a (.tail _ inA) b (.tail _ inB)
    · next differ =>
        have tail := ih later fun a inA b inB => distinct a (.tail _ inA) b (.tail _ inB)
        have below : last.dst.bits < next.dst.bits := by
          apply lt_of_le_of_ne (first next List.mem_cons_self)
          intro same
          exact differ (distinct next (by simp) last (by simp)
            (Allocation.bits_injective same.symm))
        refine List.pairwise_cons.mpr ⟨fun move member => ?_, tail⟩
        rcases List.mem_cons.mp member with rfl | member
        · exact below
        · exact below.trans ((List.pairwise_cons.mp tail).1 move member)

omit [DecidableEq T] in
theorem sorted_by_dst (moves : List (Move T)) :
    (moves.mergeSort fun a b => a.key ≤ b.key).Pairwise fun a b => a.dst.bits ≤ b.dst.bits := by
  have sorted := @List.pairwise_mergeSort _ (fun a b : Move T => decide (a.key ≤ b.key))
    (fun a b c ab bc => by simp only [decide_eq_true_eq] at *; omega)
    (fun a b => by simp only [Bool.or_eq_true, decide_eq_true_eq]; omega) moves
  exact sorted.imp fun le => Move.dst_le_of_key_le (by simpa using le)

theorem mem_prepare (move : Move T) :
    move ∈ prepare moves ↔ move ∈ moves ∧ move.src ≠ move.dst := by
  simp [prepare, mem_dedup]

theorem prepare_increasing (distinct : DistinctDests moves) :
    (prepare moves).Pairwise fun a b => a.dst.bits < b.dst.bits := by
  apply List.Pairwise.filter
  have sorted := sorted_by_dst moves
  have same : DistinctDests (moves.mergeSort fun a b => a.key ≤ b.key) := by
    intro a inA b inB
    exact distinct a (by simpa using inA) b (by simpa using inB)
  revert sorted same
  cases moves.mergeSort fun a b => a.key ≤ b.key with
  | nil => exact fun _ _ => List.Pairwise.nil
  | cons first rest => exact fun sorted same => dedupAfter_increasing sorted same

end Prepare

/-! ## The search for the move that overwrites a source -/

/-- The moves are sorted by their destinations, which are pairwise different. -/
def Increasing (moves : List (Move T)) : Prop :=
  moves.Pairwise fun a b => a.dst.bits < b.dst.bits

section Search

variable {moves : List (Move T)}

section

variable (increasing : Increasing moves)
include increasing

theorem findDest_eq_some {src : Allocation} {i : Nat} :
    findDest moves src = some i ↔ ∃ inside : i < moves.length,
      (moves.get ⟨i, inside⟩).dst = src := by
  unfold findDest
  rw [binarySearch_eq_some]
  · constructor
    · rintro ⟨inside, found⟩
      rw [List.getElem?_eq_getElem inside] at found
      exact ⟨inside, Allocation.bits_injective found⟩
    · rintro ⟨inside, found⟩
      refine ⟨inside, ?_⟩
      rw [List.getElem?_eq_getElem inside, ← found]
      rfl
  · intro i j before inside
    rw [List.getElem?_eq_getElem inside, List.getElem?_eq_getElem (before.trans inside)]
    exact List.pairwise_iff_getElem.mp increasing i j (before.trans inside) inside before

theorem dst_injective {i j : Fin moves.length} (same : (moves.get i).dst = (moves.get j).dst) :
    i = j := by
  have first : findDest moves (moves.get j).dst = some i :=
    (findDest_eq_some increasing).mpr ⟨i.isLt, same⟩
  have second : findDest moves (moves.get j).dst = some j :=
    (findDest_eq_some increasing).mpr ⟨j.isLt, rfl⟩
  exact Fin.ext (Option.some.inj (first.symm.trans second))

theorem mustComeBefore_eq_some {i j : Fin moves.length} :
    mustComeBefore moves i = some j ↔ (moves.get i).src = (moves.get j).dst := by
  unfold mustComeBefore
  constructor
  · intro found
    split at found
    · next k position =>
        obtain ⟨inside, isDst⟩ := (findDest_eq_some increasing).mp position
        rw [dif_pos inside] at found
        rw [← Option.some.inj found]
        exact isDst.symm
    · cases found
  · intro isDst
    have position : findDest moves (moves.get i).src = some j :=
      (findDest_eq_some increasing).mpr ⟨j.isLt, isDst.symm⟩
    rw [position]
    exact dif_pos j.isLt

theorem mustComeBefore_eq_none {i : Fin moves.length} (none : mustComeBefore moves i = none)
    (j : Fin moves.length) : (moves.get i).src ≠ (moves.get j).dst := by
  intro isDst
  rw [(mustComeBefore_eq_some increasing).mpr isDst] at none
  cases none

theorem not_sourcesOverlapDests (apart : sourcesOverlapDests moves = false) {a b : Move T}
    (inA : a ∈ moves) (inB : b ∈ moves) : a.src ≠ b.dst := by
  intro isDst
  obtain ⟨j, rfl⟩ := List.mem_iff_get.mp inB
  have found := (findDest_eq_some increasing).mpr ⟨j.isLt, isDst.symm⟩
  have missing := List.any_eq_false.mp apart a inA
  rw [found] at missing
  exact missing rfl

end

end Search

/-! ## The walk -/

def Move.ends (move : Move T) : Allocation × Allocation := (move.src, move.dst)

/-- A move as a pair of locations, `none` standing for the scratch location. -/
def Move.locations (scratch : Allocation) (move : Move T) : Allocation × Allocation :=
  (move.withScratch scratch).ends

/-- `none` is no location: the sequence uses it for the scratch location. -/
def Move.Located (move : Move T) : Prop := move.src.isNone = false ∧ move.dst.isNone = false

theorem Move.Located.locations_eq {move : Move T} (located : move.Located) (scratch : Allocation) :
    move.locations scratch = (move.src, move.dst) := by
  simp [locations, withScratch, ends, located.1, located.2]

theorem Move.locations_from_scratch {dst : Allocation} (isLocation : dst.isNone = false)
    (scratch : Allocation) (data : T) :
    Move.locations scratch ⟨.none, dst, data⟩ = (scratch, dst) := by
  simp only [locations, withScratch, ends, isLocation]
  rfl

theorem Move.locations_to_scratch {src : Allocation} (isLocation : src.isNone = false)
    (scratch : Allocation) (data : T) :
    Move.locations scratch ⟨src, .none, data⟩ = (src, scratch) := by
  simp only [locations, withScratch, ends, isLocation]
  rfl

namespace Walk

variable {moves : List (Move T)} {s : Allocation} {V : Type}

/-- What the pushed moves do, when the moves that are done read the locations `src`. -/
structure Scheduled (V : Type) (s : Allocation) (src : Fin moves.length → Allocation)
    (w : Walk moves) : Prop where
  closed : ∀ i j, w.state i = .done → src i = (moves.get j).dst → w.state j = .done
  assigns : Assigns V (fun l => w.scratchUsed = true ∧ l = s) (fun i => w.state i = .done) src
    (fun i => (moves.get i).dst) (w.ret.map (Move.locations s))

/-- What holds of the moves that the walk schedules. -/
structure Schedulable (s : Allocation) (moves : List (Move T)) : Prop where
  increasing : Increasing moves
  moving : ∀ i, (moves.get i).src ≠ (moves.get i).dst
  located : ∀ i, (moves.get i).Located
  freshSrc : ∀ i, (moves.get i).src ≠ s
  freshDst : ∀ i, (moves.get i).dst ≠ s

variable {src : Fin moves.length → Allocation} {w : Walk moves} {i : Fin moves.length}

variable {popped : List (Fin moves.length)}

theorem finish_state (w : Walk moves) (i j : Fin moves.length) :
    (w.finish i).state j = if j = i then .done else w.state j :=
  Function.update_apply ..

theorem finish_done_iff (w : Walk moves) (i j : Fin moves.length) :
    (w.finish i).state j = .done ↔ w.state j = .done ∨ j = i := by
  rw [finish_state]
  split
  · next same => simp [same]
  · next differ => simp [differ]

theorem Scheduled.finish (sched : w.Scheduled V s src) (good : Schedulable s moves)
    (fresh : w.state i ≠ .done) (own : src i = (moves.get i).src)
    (before : ∀ j, (moves.get i).src = (moves.get j).dst → w.state j = .done) :
    (w.finish i).Scheduled V s src where
  closed j k isDone isDst := by
    rw [finish_done_iff]
    left
    rcases (finish_done_iff w i j).mp isDone with isDone | rfl
    · exact sched.closed j k isDone isDst
    · exact before k (own ▸ isDst)
  assigns := by
    have pushed := sched.assigns.pushSelf i
      (fun j isDone isDst => fresh (sched.closed j i isDone isDst))
      (fun j isDone isDst => fresh (dst_injective good.increasing isDst ▸ isDone))
    show Assigns V _ _ _ _ ((moves.get i).locations s :: w.ret.map (Move.locations s))
    rw [(good.located i).locations_eq, ← own]
    exact pushed.congr (fun j => (finish_done_iff w i j).symm) fun j _ => rfl

section

variable (popped : List (Fin moves.length)) (w : Walk moves)

theorem foldl_finish_state (j : Fin moves.length) :
    (popped.foldl Walk.finish w).state j = if j ∈ popped then .done else w.state j := by
  induction popped generalizing w with
  | nil => simp
  | cons i rest ih =>
    rw [List.foldl_cons, ih, finish_state]
    by_cases same : j = i
    · simp [same]
    · simp [same]

theorem foldl_finish_scratchUsed : (popped.foldl Walk.finish w).scratchUsed = w.scratchUsed := by
  induction popped generalizing w with
  | nil => rfl
  | cons i rest ih => exact ih (w.finish i)

theorem foldl_finish_ret :
    (popped.foldl Walk.finish w).ret = popped.reverse.map moves.get ++ w.ret := by
  induction popped generalizing w with
  | nil => rfl
  | cons i rest ih =>
    rw [List.foldl_cons, ih]
    simp [Walk.finish]

end

/-- Each move of the stack writes the source of the move below it. -/
def Stacked (moves : List (Move T)) (stack : List (Fin moves.length)) : Prop :=
  stack.IsChain fun above below => (moves.get below).src = (moves.get above).dst

/-- Moves popped from the stack join the schedule in the order of the stack. -/
theorem Scheduled.foldl_finish (sched : w.Scheduled V s src) (good : Schedulable s moves)
    (chain : Stacked moves popped) (nodup : popped.Nodup) (fresh : ∀ i ∈ popped, w.state i ≠ .done)
    (own : ∀ i ∈ popped, src i = (moves.get i).src)
    (before : ∀ i ∈ popped.head?, ∀ j, (moves.get i).src = (moves.get j).dst → w.state j = .done) :
    (popped.foldl Walk.finish w).Scheduled V s src := by
  induction popped generalizing w with
  | nil => exact sched
  | cons i rest ih =>
    obtain ⟨notIn, nodup⟩ := List.nodup_cons.mp nodup
    have stepped := sched.finish good (fresh i List.mem_cons_self) (own i List.mem_cons_self)
      (before i rfl)
    apply ih stepped chain.tail nodup
    · intro j member isDone
      rcases (finish_done_iff w i j).mp isDone with isDone | rfl
      · exact fresh j (List.mem_cons_of_mem _ member) isDone
      · exact notIn member
    · intro j member
      exact own j (List.mem_cons_of_mem _ member)
    · intro j first k isDst
      cases rest with
      | nil => cases first
      | cons below rest =>
        obtain rfl := Option.some.inj first
        have above := (List.isChain_cons_cons.mp chain).1
        have same := dst_injective good.increasing (isDst.symm.trans above)
        exact (finish_done_iff w i k).mpr (.inr same)

theorem popUntil_eq {next : Fin moves.length} {stack : List (Fin moves.length)}
    (member : next ∈ stack) (w : Walk moves) :
    ∃ popped rest, stack = popped ++ rest ∧ next ∈ popped ∧
      popUntil next stack w = { popped.foldl Walk.finish w with stack := rest } := by
  induction stack generalizing w with
  | nil => cases member
  | cons i rest ih =>
    rw [popUntil]
    split
    · next same => exact ⟨[i], rest, rfl, by simp [same], rfl⟩
    · next differ =>
        have below : next ∈ rest := by
          rcases List.mem_cons.mp member with same | below
          · exact absurd same.symm differ
          · exact below
        obtain ⟨popped, left, rfl, isIn, equal⟩ := ih below (w.finish i)
        exact ⟨i :: popped, left, rfl, List.mem_cons_of_mem _ isIn, equal⟩

/-! ### Cycles -/

/-- The sources of the moves. -/
def sources (moves : List (Move T)) (i : Fin moves.length) : Allocation := (moves.get i).src

section Cycle

variable [Inhabited T] {top next : Fin moves.length}

theorem openCycle_state (w : Walk moves) (top j : Fin moves.length) :
    (w.openCycle top).state j = if j = top then .done else w.state j :=
  Function.update_apply ..

theorem openCycle_done_iff (w : Walk moves) (top j : Fin moves.length) :
    (w.openCycle top).state j = .done ↔ w.state j = .done ∨ j = top :=
  finish_done_iff w top j

/-- The move on top reads the scratch location, which no move writes. -/
theorem Scheduled.openCycle (sched : w.Scheduled V s (sources moves)) (good : Schedulable s moves)
    (fresh : w.state top ≠ .done) :
    (w.openCycle top).Scheduled V s (Function.update (sources moves) top s) where
  closed j k isDone isDst := by
    by_cases same : j = top
    · rw [same, Function.update_self] at isDst
      exact absurd isDst.symm (good.freshDst k)
    · rw [Function.update_of_ne same] at isDst
      rcases (openCycle_done_iff w top j).mp isDone with isDone | isTop
      · exact (openCycle_done_iff w top k).mpr (.inl (sched.closed j k isDone isDst))
      · exact absurd isTop same
  assigns := by
    have pushed := sched.assigns.push top s
      (fun j isDone isDst => fresh (sched.closed j top isDone isDst))
      (fun j isDone isDst => fresh (dst_injective good.increasing isDst ▸ isDone))
    show Assigns V _ _ _ _ (Move.locations s _ :: w.ret.map (Move.locations s))
    rw [Move.locations_from_scratch (good.located top).2]
    apply Assigns.congr (Assigns.mono pushed fun l isJunk => ⟨rfl, isJunk.2⟩)
    · intro j
      exact (openCycle_done_iff w top j).symm
    · intro j _
      rfl

/-- The save of the source of the move on top gives that move its own source back. -/
theorem Scheduled.closeCycle
    (sched : w.Scheduled V s (Function.update (sources moves) top s)) (good : Schedulable s moves)
    (used : w.scratchUsed = true) (isDst : (moves.get top).src = (moves.get next).dst)
    (isDone : w.state next = .done) : (w.closeCycle top).Scheduled V s (sources moves) where
  closed j k jDone toK := by
    by_cases same : j = top
    · obtain rfl : k = next := by
        apply dst_injective good.increasing
        rw [← isDst, ← toK, same]
        rfl
      exact isDone
    · exact sched.closed j k jDone (by rwa [Function.update_of_ne same])
  assigns := by
    have saved := sched.assigns.save top ⟨used, rfl⟩ good.freshSrc
    show Assigns V _ _ _ _ (Move.locations s _ :: w.ret.map (Move.locations s))
    rw [Move.locations_to_scratch (good.located top).1]
    exact saved

end Cycle

/-! ### The invariant -/

/-- What the walk pushes: a move, or, once the scratch location is used, one end of a move. -/
def Pushed (moves : List (Move T)) (used : Bool) (move : Move T) : Prop :=
  move ∈ moves ∨ used = true ∧ ∃ whole ∈ moves,
    move.src = .none ∧ move.dst = whole.dst ∨ move.src = whole.src ∧ move.dst = .none

theorem foldl_finish_pushed {w : Walk moves} {used : Bool}
    (earlier : ∀ move ∈ w.ret, Pushed moves used move) :
    ∀ move ∈ (popped.foldl Walk.finish w).ret, Pushed moves used move := by
  intro move member
  rw [foldl_finish_ret] at member
  rcases List.mem_append.mp member with popped | before
  · obtain ⟨i, _, rfl⟩ := List.mem_map.mp popped
    exact .inl (List.get_mem moves i)
  · exact earlier move before

structure Invariant (V : Type) (s : Allocation) (w : Walk moves) : Prop where
  nodup : w.stack.Nodup
  pending : ∀ i, i ∈ w.stack ↔ w.state i = .pending
  chain : Stacked moves w.stack
  sched : w.Scheduled V s (sources moves)
  pushed : ∀ move ∈ w.ret, Pushed moves w.scratchUsed move

theorem start_invariant : (start moves).Invariant V s where
  nodup := List.nodup_nil
  pending i := by simp [start]
  chain := List.isChain_nil
  sched :=
    { closed := fun i j isDone => by cases isDone
      assigns := by
        have empty : Assigns V (fun _ => False) (fun _ => False) (sources moves)
            (fun i => (moves.get i).dst) [] := Assigns.nil
        exact (empty.mono fun l isFalse => isFalse.elim).congr (fun i => by simp [start])
          fun i _ => rfl }
  pushed move member := by cases member

namespace Invariant

variable {top next : Fin moves.length} {rest : List (Fin moves.length)}

theorem not_done (inv : w.Invariant V s) (member : i ∈ w.stack) : w.state i ≠ .done := by
  rw [(inv.pending i).mp member]
  decide

theorem visit (inv : w.Invariant V s) (toDo : w.state next = .toDo)
    (chain : Stacked moves (next :: w.stack)) : (w.visit next).Invariant V s where
  nodup := by
    refine List.nodup_cons.mpr ⟨fun member => ?_, inv.nodup⟩
    rw [(inv.pending next).mp member] at toDo
    cases toDo
  pending j := by
    show j ∈ next :: w.stack ↔ Function.update w.state next .pending j = .pending
    rw [Function.update_apply, List.mem_cons, inv.pending j]
    split
    · next same => simp [same]
    · next differ => simp [differ]
  chain := chain
  sched := by
    have same : ∀ j, (w.visit next).state j = .done ↔ w.state j = .done := by
      intro j
      show Function.update w.state next .pending j = .done ↔ _
      rw [Function.update_apply]
      split
      · next same => simp [same, toDo]
      · rfl
    constructor
    · intro j k isDone isDst
      exact (same k).mpr (inv.sched.closed j k ((same j).mp isDone) isDst)
    · exact inv.sched.assigns.congr (fun j => (same j).symm) fun j _ => rfl
  pushed := inv.pushed

/-- The stack is emptied once nothing overwrites the source of its top too late. -/
theorem drain (inv : w.Invariant V s) (good : Schedulable s moves) (stack : w.stack = top :: rest)
    (before : ∀ j, (moves.get top).src = (moves.get j).dst → w.state j = .done) :
    w.drain.Invariant V s where
  nodup := List.nodup_nil
  pending j := by
    show j ∈ [] ↔ (w.stack.foldl Walk.finish w).state j = .pending
    rw [foldl_finish_state]
    split
    · next member => simp
    · next notIn => simp [← inv.pending j, notIn]
  chain := List.isChain_nil
  sched := by
    have popped := inv.sched.foldl_finish good inv.chain inv.nodup
      (fun i member => inv.not_done member) (fun i _ => rfl) (by
        intro i first
        rw [stack] at first
        obtain rfl := Option.some.inj first
        exact before)
    exact ⟨popped.closed, popped.assigns⟩
  pushed move member := by
    rw [show w.drain.scratchUsed = w.scratchUsed from foldl_finish_scratchUsed w.stack w]
    exact foldl_finish_pushed inv.pushed move member

/-- A cycle is popped from its last move to the move that the last one waits for. -/
theorem cycle [Inhabited T] (inv : w.Invariant V s) (good : Schedulable s moves)
    (stack : w.stack = top :: rest) (isDst : (moves.get top).src = (moves.get next).dst)
    (waits : w.state next = .pending) :
    ((popUntil next rest (w.openCycle top)).closeCycle top).Invariant V s := by
  have nodup := inv.nodup
  have chain := inv.chain
  have onStack := (inv.pending next).mpr waits
  rw [stack] at nodup chain onStack
  have below : next ∈ rest := by
    rcases List.mem_cons.mp onStack with rfl | below
    · exact absurd isDst (good.moving next)
    · exact below
  obtain ⟨popped, left, rfl, isIn, equal⟩ := popUntil_eq below (w.openCycle top)
  obtain ⟨notTop, nodup⟩ := List.nodup_cons.mp nodup
  obtain ⟨poppedNodup, leftNodup, apart⟩ := List.nodup_append.mp nodup
  have state : ∀ j, ((popUntil next (popped ++ left) (w.openCycle top)).closeCycle top).state j =
      if j ∈ popped then .done else if j = top then .done else w.state j := by
    intro j
    rw [equal]
    show (popped.foldl Walk.finish (w.openCycle top)).state j = _
    rw [foldl_finish_state, openCycle_state]
  have used : (popped.foldl Walk.finish (w.openCycle top)).scratchUsed = true :=
    foldl_finish_scratchUsed popped _
  constructor
  case nodup =>
    rw [equal]
    exact leftNodup
  case pending =>
    intro j
    rw [state j, equal]
    show j ∈ left ↔ _
    have whole := inv.pending j
    rw [stack] at whole
    split
    · next wasPopped => simpa using fun isLeft => apart j wasPopped j isLeft rfl
    · next notPopped =>
        split
        · next isTop =>
            subst isTop
            simpa using fun isLeft => notTop (List.mem_append_right _ isLeft)
        · next notTop => simpa [notTop, notPopped] using whole
  case chain =>
    rw [equal]
    exact chain.tail.right_of_append
  case sched =>
    have opened := (inv.sched.openCycle good (inv.not_done (stack ▸ List.mem_cons_self)))
    have inOrder := opened.foldl_finish good chain.tail.left_of_append poppedNodup
      (by
        intro i member isDone
        rcases (openCycle_done_iff w top i).mp isDone with isDone | rfl
        · exact inv.not_done (stack ▸ by simp [member]) isDone
        · exact notTop (List.mem_append_left _ member))
      (by
        intro i member
        apply Function.update_of_ne
        rintro rfl
        exact notTop (List.mem_append_left _ member))
      (by
        intro i first j toJ
        obtain ⟨others, rfl⟩ := List.head?_eq_some_iff.mp first
        have above := (List.isChain_cons_cons.mp chain).1
        have same := dst_injective good.increasing (toJ.symm.trans above)
        exact (openCycle_done_iff w top j).mpr (.inr same))
    have result : (popUntil next (popped ++ left) (w.openCycle top)).Scheduled V s
        (Function.update (sources moves) top s) := by
      rw [equal]
      exact ⟨inOrder.closed, inOrder.assigns⟩
    apply result.closeCycle good _ isDst
    · exact (state next).trans (if_pos isIn)
    · rw [equal]
      exact used
  case pushed =>
    rw [equal]
    intro move member
    show Pushed moves (popped.foldl Walk.finish (w.openCycle top)).scratchUsed move
    rw [used]
    rcases List.mem_cons.mp member with rfl | member
    · exact .inr ⟨rfl, _, List.get_mem moves top, .inr ⟨rfl, rfl⟩⟩
    · apply foldl_finish_pushed _ move member
      intro move member
      rcases List.mem_cons.mp member with rfl | member
      · exact .inr ⟨rfl, _, List.get_mem moves top, .inl ⟨rfl, rfl⟩⟩
      · rcases inv.pushed move member with whole | ⟨_, part⟩
        · exact .inl whole
        · exact .inr ⟨rfl, part⟩

theorem advance [Inhabited T] {w' : Walk moves} (inv : w.Invariant V s)
    (good : Schedulable s moves) (step : w.advance = some w') : w'.Invariant V s := by
  unfold Walk.advance at step
  split at step
  · next empty =>
      obtain ⟨next, found, rfl⟩ := Option.map_eq_some_iff.mp step
      apply inv.visit (by simpa using List.find?_some found)
      rw [empty]
      exact List.isChain_singleton next
  · next top rest stack =>
      split at step
      · next noSource =>
          obtain rfl := Option.some.inj step
          exact inv.drain good stack fun j isDst =>
            absurd isDst (mustComeBefore_eq_none good.increasing noSource j)
      · next next found =>
          have isDst := (mustComeBefore_eq_some good.increasing).mp found
          split at step
          · next isDone =>
              obtain rfl := Option.some.inj step
              apply inv.drain good stack
              intro j toJ
              rwa [← dst_injective good.increasing (isDst.symm.trans toJ)]
          · next toDo =>
              obtain rfl := Option.some.inj step
              apply inv.visit toDo
              rw [stack]
              exact List.isChain_cons_cons.mpr ⟨isDst, stack ▸ inv.chain⟩
          · next waits =>
              obtain rfl := Option.some.inj step
              exact inv.cycle good stack isDst waits

/-- The loops end when every move is done. -/
theorem run [Inhabited T] (inv : w.Invariant V s) (good : Schedulable s moves) :
    w.run.Invariant V s ∧ ∀ i, w.run.state i = .done := by
  induction w using Walk.run.induct with
  | case1 w ended =>
    rw [Walk.run, ended]
    refine ⟨inv, fun i => ?_⟩
    unfold Walk.advance at ended
    split at ended
    · next empty =>
        have missing := List.find?_eq_none.mp (Option.map_eq_none_iff.mp ended) i
          (List.mem_finRange i)
        have waiting := (inv.pending i).not.mp (by simp [empty])
        cases state : w.state i with
        | toDo => simp [state] at missing
        | pending => exact absurd state waiting
        | done => rfl
    · split at ended
      · cases ended
      · split at ended <;> cases ended
  | case2 w w' step ih =>
    rw [Walk.run, step]
    exact ih (inv.advance good step)

end Invariant

end Walk

/-! ## The whole resolution -/

theorem Move.Located.ne_none {move : Move T} (located : move.Located) :
    move.src ≠ .none ∧ move.dst ≠ .none := by
  constructor
  · intro isNone
    have notNone := located.1
    rw [isNone] at notNone
    cases notNone
  · intro isNone
    have notNone := located.2
    rw [isNone] at notNone
    cases notNone

/-- The location `l` occurs in no move. -/
def Avoids (l : Allocation) (moves : List (Move T)) : Prop :=
  ∀ move ∈ moves, move.src ≠ l ∧ move.dst ≠ l

theorem Move.Located.locations_map {moves : List (Move T)}
    (located : ∀ move ∈ moves, move.Located) (s : Allocation) :
    moves.map (Move.locations s) = moves.map Move.ends :=
  List.map_congr_left fun move member => (located move member).locations_eq s

theorem DistinctDests.ends {moves : List (Move T)} (distinct : DistinctDests moves) :
    ∀ a ∈ moves.map Move.ends, ∀ b ∈ moves.map Move.ends, a.2 = b.2 → a = b := by
  intro _ inA _ inB same
  obtain ⟨a, isMove, rfl⟩ := List.mem_map.mp inA
  obtain ⟨b, isMove', rfl⟩ := List.mem_map.mp inB
  rw [distinct a isMove b isMove' same]

section Resolution

variable [DecidableEq T] {moves : List (Move T)} {s : Allocation} {V : Type}

variable {l : Allocation} {sequence : List (Move T)}

theorem prepare_schedulable (distinct : DistinctDests moves)
    (located : ∀ move ∈ moves, move.Located)
    (fresh : Avoids s moves) : Walk.Schedulable s (prepare moves) := by
  have kept := fun i => (mem_prepare _).mp (List.get_mem (prepare moves) i)
  exact
    { increasing := prepare_increasing distinct
      moving := fun i => (kept i).2
      located := fun i => located _ (kept i).1
      freshSrc := fun i => (fresh _ (kept i).1).1
      freshDst := fun i => (fresh _ (kept i).1).2 }

section

variable [Inhabited T] (distinct : DistinctDests moves) (located : ∀ move ∈ moves, move.Located)
include distinct located

theorem run_ret_correct (fresh : Avoids s moves) (env : Allocation → V) (l : Allocation)
    (clean : ¬ ((Walk.start (prepare moves)).run.scratchUsed = true ∧ l = s)) :
    runMoves ((Walk.start (prepare moves)).run.ret.map (Move.locations s)) env l =
      assignMoves (moves.map Move.ends) env l := by
  obtain ⟨inv, ended⟩ := (Walk.start_invariant (V := V)).run
    (prepare_schedulable distinct located fresh)
  apply inv.sched.assigns.eq_assignMoves distinct.ends _ _ env clean
  · intro i _
    exact List.mem_map_of_mem ((mem_prepare _).mp (List.get_mem (prepare moves) i)).1
  · intro a member
    obtain ⟨move, isMove, rfl⟩ := List.mem_map.mp member
    by_cases still : move.src = move.dst
    · exact .inl still
    · obtain ⟨i, rfl⟩ := List.mem_iff_get.mp ((mem_prepare move).mpr ⟨isMove, still⟩)
      exact .inr ⟨i, ended i, rfl⟩

theorem run_ret_pushed :
    ∀ move ∈ (Walk.start (prepare moves)).run.ret,
      Walk.Pushed (prepare moves) (Walk.start (prepare moves)).run.scratchUsed move := by
  have good := prepare_schedulable distinct located fun move member => (located move member).ne_none
  obtain ⟨inv, _⟩ := (Walk.start_invariant (V := Unit)).run good
  exact inv.pushed

theorem run_ret_mem (unused : ¬ (Walk.start (prepare moves)).run.scratchUsed = true) :
    ∀ move ∈ (Walk.start (prepare moves)).run.ret, move ∈ moves := by
  intro move member
  rcases run_ret_pushed distinct located move member with whole | ⟨used, _⟩
  · exact ((mem_prepare move).mp whole).1
  · exact absurd used unused

end

theorem prepare_correct (distinct : DistinctDests moves)
    (apart : sourcesOverlapDests (prepare moves) = false) (env : Allocation → V)
    (l : Allocation) :
    runMoves ((prepare moves).map Move.ends) env l = assignMoves (moves.map Move.ends) env l := by
  have increasing := prepare_increasing distinct
  have disjoint : ((prepare moves).map Move.ends).Pairwise fun a b => a.2 ≠ b.2 ∧ b.1 ≠ a.2 := by
    rw [List.pairwise_map]
    apply increasing.imp_of_mem
    intro a b inA inB below
    refine ⟨fun same => ?_, not_sourcesOverlapDests increasing apart inB inA⟩
    exact below.ne (congrArg Allocation.bits same)
  apply (Assigns.of_pairwise disjoint).eq_assignMoves distinct.ends _ _ env not_false
  · intro a member
    obtain ⟨move, isMove, rfl⟩ := List.mem_map.mp member
    exact List.mem_map_of_mem ((mem_prepare move).mp isMove).1
  · intro a member
    obtain ⟨move, isMove, rfl⟩ := List.mem_map.mp member
    by_cases still : move.src = move.dst
    · exact .inl still
    · exact .inr ⟨_, List.mem_map_of_mem ((mem_prepare move).mpr ⟨isMove, still⟩), rfl⟩

omit [DecidableEq T] in
theorem short_correct (short : moves.length ≤ 1) (env : Allocation → V) (l : Allocation) :
    runMoves (moves.map Move.ends) env l = assignMoves (moves.map Move.ends) env l := by
  match moves, short with
  | [], _ => rfl
  | [move], _ =>
    show Function.update env move.dst (env move.src) l = _
    by_cases isDst : move.dst = l
    · subst isDst
      simp [assignMoves, Move.ends]
    · rw [Function.update_of_ne (Ne.symm isDst)]
      simp [assignMoves, Move.ends, isDst]

theorem withScratch_avoids [Inhabited T] (located : ∀ move ∈ moves, move.Located) {move : Move T}
    (pushed : Walk.Pushed (prepare moves) true move) (avoids : Avoids l moves) (differ : l ≠ s) :
    (move.withScratch s).src ≠ l ∧ (move.withScratch s).dst ≠ l := by
  have kept := fun whole (member : whole ∈ prepare moves) => ((mem_prepare whole).mp member).1
  rcases pushed with whole | ⟨_, whole, member, ⟨fromScratch, toWhole⟩ | ⟨fromWhole, toScratch⟩⟩
  · have place := located move (kept move whole)
    simpa [Move.withScratch, place.1, place.2] using avoids move (kept move whole)
  · have place := located whole (kept whole member)
    rw [Move.withScratch, fromScratch, toWhole, place.2]
    exact ⟨differ.symm, (avoids whole (kept whole member)).2⟩
  · have place := located whole (kept whole member)
    rw [Move.withScratch, fromWhole, toScratch, place.1]
    exact ⟨(avoids whole (kept whole member)).1, differ.symm⟩

section

variable [Inhabited T] (distinct : DistinctDests moves) (located : ∀ move ∈ moves, move.Located)
include distinct located

theorem resolve_noScratch_mem (result : resolve moves = .noScratch sequence) :
    ∀ move ∈ sequence, move ∈ moves := by
  unfold resolve at result
  split at result
  · cases result
    exact fun _ member => member
  split at result
  · unfold schedule at result
    split at result
    · cases result
    · next unused =>
        cases result
        exact run_ret_mem distinct located unused
  · cases result
    exact fun move member => ((mem_prepare move).mp member).1

theorem resolve_scratch_mem (result : resolve moves = .scratch sequence) :
    ∀ move ∈ sequence, Walk.Pushed (prepare moves) true move := by
  unfold resolve at result
  split at result
  · cases result
  split at result
  · unfold schedule at result
    split at result
    · next used =>
        cases result
        exact used ▸ run_ret_pushed distinct located
    · cases result
  · cases result

/-- The sequence uses no location besides those of the moves and the scratch location. -/
theorem resolve_avoids (avoids : Avoids l moves) (differ : l ≠ s) :
    Avoids l ((resolve moves).withScratch s) := by
  cases result : resolve moves with
  | noScratch sequence =>
    intro move member
    exact avoids move (resolve_noScratch_mem distinct located result move member)
  | scratch sequence =>
    intro move member
    obtain ⟨part, isPart, rfl⟩ := List.mem_map.mp member
    exact withScratch_avoids located (resolve_scratch_mem distinct located result part isPart)
      avoids differ

end

/-- The sequence has the effect of the parallel assignment everywhere but at the scratch
location, and everywhere when it needs none. -/
theorem resolve_correct [Inhabited T] (distinct : DistinctDests moves)
    (located : ∀ move ∈ moves, move.Located) (env : Allocation → V) :
    (∀ s, Avoids s moves → ∀ l, l ≠ s →
      runMoves (((resolve moves).withScratch s).map Move.ends) env l =
        assignMoves (moves.map Move.ends) env l) ∧
    ∀ sequence, resolve moves = .noScratch sequence → ∀ l,
      runMoves (sequence.map Move.ends) env l = assignMoves (moves.map Move.ends) env l := by
  unfold resolve
  split
  · next short =>
      exact ⟨fun s _ l _ => short_correct short env l, fun sequence result l => by
        cases result
        exact short_correct short env l⟩
  split
  · next long overlap =>
      unfold schedule
      split
      · next used =>
          refine ⟨fun s fresh l differ => ?_, fun sequence result => by cases result⟩
          have correct := run_ret_correct distinct located fresh env l fun isJunk => differ isJunk.2
          show runMoves ((List.map (Move.withScratch s) _).map Move.ends) env l = _
          rw [List.map_map]
          exact correct
      · next unused =>
          -- nothing has been pushed that reads or writes the scratch location
          have correct : ∀ l, runMoves ((Walk.start (prepare moves)).run.ret.map Move.ends) env l =
              assignMoves (moves.map Move.ends) env l := by
            intro l
            have fresh := fun move member => (located move member).ne_none
            have kept := fun move member =>
              located move (run_ret_mem distinct located unused move member)
            rw [← Move.Located.locations_map kept .none]
            exact run_ret_correct distinct located fresh env l fun isJunk => unused isJunk.1
          exact ⟨fun s _ l _ => correct l, fun sequence result l => by
            cases result
            exact correct l⟩
  · next apart =>
      exact ⟨fun s _ l _ => prepare_correct distinct (by simpa using apart) env l,
        fun sequence result l => by
          cases result
          exact prepare_correct distinct (by simpa using apart) env l⟩

instance neZero_pregCount : NeZero 32 := ⟨by decide⟩

def register (index : Fin 32) : Allocation := ⟨.reg, index, index.isLt.trans (by decide)⟩

/-- Two registers are exchanged, and a third one gets the value of one of them. -/
def exchange : List (Move Nat) :=
  [⟨register 0, register 1, 0⟩, ⟨register 1, register 0, 0⟩, ⟨register 0, register 2, 0⟩,
    ⟨register 1, register 0, 0⟩]

theorem resolve_exchange :
    runMoves (((resolve exchange).withScratch (register 3)).map Move.ends) Allocation.bits
      (register 0) = (register 1).bits := by
  have distinct : DistinctDests exchange := by unfold DistinctDests; decide
  have correct := (resolve_correct distinct (by unfold Move.Located; decide) Allocation.bits).1
    (register 3) (by unfold Avoids; decide) (register 0) (by decide)
  rw [correct]
  decide

end Resolution

end AnonCompiler.Mir
