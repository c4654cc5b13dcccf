import AnonCompiler.Lib.BinarySearch
import AnonCompiler.Lib.ParallelMove

/-!
# Parallel moves

`ParallelMoves::resolve` and `MoveVecWithScratch::with_scratch` of
`taki_mir/src/reg_alloc/moves.rs`.  The depth-first walk pushes the moves in the reverse of
their final order; the list `ret` is kept reversed here, so that the last
`ret.reverse()` is not needed.
-/

set_option autoImplicit false

namespace AnonCompiler.Mir

open AnonCompiler.Lib

inductive AllocationKind where
  | none
  | reg
  | stack
deriving DecidableEq, Repr

def AllocationKind.code : AllocationKind → Nat
  | .none => 0
  | .reg => 1
  | .stack => 2

structure Allocation where
  kind : AllocationKind
  index : Nat
  valid : index < 2 ^ 28
deriving DecidableEq, Repr

namespace Allocation

def none : Allocation := ⟨.none, 0, by decide⟩

def bits (a : Allocation) : Nat := (a.kind.code <<< 29) ||| a.index

def isNone (a : Allocation) : Bool := a.kind = .none

end Allocation

structure Move (T : Type) where
  src : Allocation
  dst : Allocation
  data : T
deriving DecidableEq, Repr

inductive MoveVecWithScratch (T : Type) where
  | noScratch (moves : List (Move T))
  | scratch (moves : List (Move T))

/-! ## Preparation -/

section Prepare

variable {T : Type} [DecidableEq T]

def u64Key (b a : Nat) : Nat := a ||| (b <<< 32)

def Move.key (move : Move T) : Nat := u64Key move.dst.bits move.src.bits

/-- What `Vec::dedup` keeps behind an element that it has kept. -/
def dedupAfter (last : Move T) : List (Move T) → List (Move T)
  | [] => []
  | move :: rest => if move = last then dedupAfter last rest else move :: dedupAfter move rest

def dedup : List (Move T) → List (Move T)
  | [] => []
  | move :: rest => move :: dedupAfter move rest

/-- The moves after `sort_by_key`, `dedup` and `retain`. -/
def prepare (moves : List (Move T)) : List (Move T) :=
  (dedup (moves.mergeSort fun a b => a.key ≤ b.key)).filter fun move => move.src ≠ move.dst

end Prepare

section Resolve

variable {T : Type}

/-- `binary_search_by_key(&src, |&(_, dst, _)| dst)`; allocations are ordered by their bits. -/
def findDest (moves : List (Move T)) (src : Allocation) : Option Nat :=
  binarySearch (fun i => (moves[i]?).elim 0 fun move => move.dst.bits) moves.length src.bits

def sourcesOverlapDests (moves : List (Move T)) : Bool :=
  moves.any fun move => (findDest moves move.src).isSome

/-- `none` stands for `NONE`; a position that is found is one of a move. -/
def mustComeBefore (moves : List (Move T)) (i : Fin moves.length) : Option (Fin moves.length) :=
  match findDest moves (moves.get i).src with
  | some j => if inside : j < moves.length then some ⟨j, inside⟩ else none
  | none => none

/-! ## The walk -/

inductive MoveState where
  | toDo
  | pending
  | done
deriving DecidableEq, Repr

/-- The variables of the walk; the top of the stack comes first. -/
structure Walk (moves : List (Move T)) where
  state : Fin moves.length → MoveState
  stack : List (Fin moves.length)
  ret : List (Move T)
  scratchUsed : Bool

namespace Walk

variable {moves : List (Move T)}

/-- A move that has been popped is pushed to the result. -/
def finish (w : Walk moves) (i : Fin moves.length) : Walk moves :=
  { w with
    state := Function.update w.state i .done
    ret := moves.get i :: w.ret }

def visit (w : Walk moves) (i : Fin moves.length) : Walk moves :=
  { w with
    state := Function.update w.state i .pending
    stack := i :: w.stack }

/-- Everything on the stack is popped. -/
def drain (w : Walk moves) : Walk moves := { w.stack.foldl finish w with stack := [] }

/-- The stack `rest` is popped up to the move `next`. -/
def popUntil (next : Fin moves.length) : List (Fin moves.length) → Walk moves → Walk moves
  | [], w => { w with stack := [] }
  | i :: rest, w =>
    if i = next then { w.finish i with stack := rest } else popUntil next rest (w.finish i)

/-- The last move of a cycle reads the scratch location. -/
def openCycle [Inhabited T] (w : Walk moves) (top : Fin moves.length) : Walk moves :=
  { w with
    state := Function.update w.state top .done
    ret := ⟨.none, (moves.get top).dst, (moves.get top).data⟩ :: w.ret
    scratchUsed := true }

/-- The source of the last move of a cycle is saved before the others. -/
def closeCycle [Inhabited T] (w : Walk moves) (top : Fin moves.length) : Walk moves :=
  { w with ret := ⟨(moves.get top).src, .none, default⟩ :: w.ret }

/-- One round of the inner loop, or the choice of the next move when the stack is empty. -/
def advance [Inhabited T] (w : Walk moves) : Option (Walk moves) :=
  match w.stack with
  | [] => ((List.finRange moves.length).find? fun i => w.state i = .toDo).map w.visit
  | top :: rest =>
    match mustComeBefore moves top with
    | none => some w.drain
    | some next =>
      match w.state next with
      | .done => some w.drain
      | .toDo => some (w.visit next)
      | .pending => some ((popUntil next rest (w.openCycle top)).closeCycle top)

def toDoCount (w : Walk moves) : Nat :=
  (Finset.univ.filter fun i => w.state i = .toDo).card

/-- Every round of the loops makes this smaller. -/
def rounds (w : Walk moves) : Nat := 2 * w.toDoCount + w.stack.length

section Measure

variable {w w' : Walk moves} {i : Fin moves.length} {s : MoveState}

theorem toDoCount_update_le (other : s ≠ .toDo) (changed : w'.state = Function.update w.state i s) :
    w'.toDoCount ≤ w.toDoCount := by
  apply Finset.card_le_card
  intro j member
  have toDo := (Finset.mem_filter.mp member).2
  rw [changed, Function.update_apply] at toDo
  split at toDo
  · exact absurd toDo other
  · exact Finset.mem_filter.mpr ⟨Finset.mem_univ j, toDo⟩

theorem toDoCount_update_lt (other : s ≠ .toDo) (changed : w'.state = Function.update w.state i s)
    (toDo : w.state i = .toDo) : w'.toDoCount < w.toDoCount := by
  apply Finset.card_lt_card
  refine ⟨fun j member => ?_, fun subset => ?_⟩
  · have stays := (Finset.mem_filter.mp member).2
    rw [changed, Function.update_apply] at stays
    split at stays
    · exact absurd stays other
    · exact Finset.mem_filter.mpr ⟨Finset.mem_univ j, stays⟩
  · have stays :=
      (Finset.mem_filter.mp (subset (Finset.mem_filter.mpr ⟨Finset.mem_univ i, toDo⟩))).2
    rw [changed, Function.update_self] at stays
    exact other stays

theorem toDoCount_finish_le (w : Walk moves) (i : Fin moves.length) :
    (w.finish i).toDoCount ≤ w.toDoCount :=
  toDoCount_update_le (by decide) rfl

end Measure

theorem foldl_finish_le (stack : List (Fin moves.length)) (w : Walk moves) :
    (stack.foldl finish w).toDoCount ≤ w.toDoCount := by
  induction stack generalizing w with
  | nil => exact le_rfl
  | cons i rest ih => exact (ih (w.finish i)).trans (w.toDoCount_finish_le i)

theorem popUntil_le (next : Fin moves.length) (stack : List (Fin moves.length))
    (w : Walk moves) : (popUntil next stack w).toDoCount ≤ w.toDoCount ∧
      (popUntil next stack w).stack.length ≤ stack.length := by
  induction stack generalizing w with
  | nil => exact ⟨le_rfl, le_rfl⟩
  | cons i rest ih =>
    rw [popUntil]
    split
    · exact ⟨w.toDoCount_finish_le i, Nat.le_succ _⟩
    · have later := ih (w.finish i)
      exact ⟨later.1.trans (w.toDoCount_finish_le i), later.2.trans (Nat.le_succ _)⟩

theorem rounds_drain (w : Walk moves) (running : w.stack ≠ []) : w.drain.rounds < w.rounds := by
  have fewer : w.drain.toDoCount ≤ w.toDoCount := foldl_finish_le w.stack w
  have := List.length_pos_iff.mpr running
  have empty : w.drain.stack.length = 0 := rfl
  rw [rounds, rounds]
  omega

theorem rounds_visit {w : Walk moves} {i : Fin moves.length} (toDo : w.state i = .toDo) :
    (w.visit i).rounds < w.rounds := by
  have fewer : (w.visit i).toDoCount < w.toDoCount := toDoCount_update_lt (by decide) rfl toDo
  have pushed : (w.visit i).stack.length = w.stack.length + 1 := rfl
  rw [rounds, rounds]
  omega

theorem rounds_advance [Inhabited T] {w w' : Walk moves} (step : w.advance = some w') :
    w'.rounds < w.rounds := by
  unfold advance at step
  split at step
  · obtain ⟨next, found, rfl⟩ := Option.map_eq_some_iff.mp step
    exact rounds_visit (by simpa using List.find?_some found)
  · next top rest stack =>
      have running : w.stack ≠ [] := by simp [stack]
      split at step
      · exact Option.some.inj step ▸ w.rounds_drain running
      · next next _ =>
          split at step
          · exact Option.some.inj step ▸ w.rounds_drain running
          · next toDo => exact Option.some.inj step ▸ rounds_visit toDo
          · have popped := popUntil_le next rest (w.openCycle top)
            have opened : (w.openCycle top).toDoCount ≤ w.toDoCount :=
              toDoCount_update_le (by decide) rfl
            have length : w.stack.length = rest.length + 1 := by simp [stack]
            rw [← Option.some.inj step, rounds, rounds]
            have closed : ((popUntil next rest (w.openCycle top)).closeCycle top).toDoCount =
                (popUntil next rest (w.openCycle top)).toDoCount := rfl
            have closedStack : ((popUntil next rest (w.openCycle top)).closeCycle top).stack =
                (popUntil next rest (w.openCycle top)).stack := rfl
            rw [closed, closedStack]
            omega

/-- The two loops. -/
def run [Inhabited T] (w : Walk moves) : Walk moves :=
  match _ : w.advance with
  | none => w
  | some w' => w'.run
termination_by w.rounds
decreasing_by exact rounds_advance ‹_›

def start (moves : List (Move T)) : Walk moves := ⟨fun _ => .toDo, [], [], false⟩

end Walk

def schedule [Inhabited T] (moves : List (Move T)) : MoveVecWithScratch T :=
  if (Walk.start moves).run.scratchUsed then .scratch (Walk.start moves).run.ret
  else .noScratch (Walk.start moves).run.ret

/-- `ParallelMoves::resolve` -/
def resolve [DecidableEq T] [Inhabited T] (moves : List (Move T)) : MoveVecWithScratch T :=
  if moves.length ≤ 1 then .noScratch moves
  else if sourcesOverlapDests (prepare moves) then schedule (prepare moves)
  else .noScratch (prepare moves)

def Move.withScratch (scratch : Allocation) (move : Move T) : Move T :=
  { move with
    src := if move.src.isNone then scratch else move.src
    dst := if move.dst.isNone then scratch else move.dst }

def MoveVecWithScratch.withScratch (scratch : Allocation) :
    MoveVecWithScratch T → List (Move T)
  | .noScratch moves => moves
  | .scratch moves => moves.map (Move.withScratch scratch)

def MoveVecWithScratch.withoutScratch : MoveVecWithScratch T → Option (List (Move T))
  | .noScratch moves => some moves
  | .scratch _ => none

def MoveVecWithScratch.needsScratch : MoveVecWithScratch T → Bool
  | .noScratch _ => false
  | .scratch _ => true

end Resolve

end AnonCompiler.Mir
