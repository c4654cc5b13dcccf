import Mathlib.Logic.Function.Basic
import Mathlib.Data.List.Basic
import Mathlib.Tactic

/-!
# Sequences of moves and parallel assignments

A sequence of moves is run one move after the other.  `Assigns` says that it has the effect
of a parallel assignment: each destination in a set gets the value its source had at the
beginning, and nothing else changes, but for some junk locations.  A sequence with that
effect grows at its front: by a move whose destination the assignment neither reads nor
writes (`Assigns.push`), and by a save of a source that the assignment then reads elsewhere
(`Assigns.save`).
-/

set_option autoImplicit false

namespace AnonCompiler.Lib

variable {L V ι : Type} [DecidableEq L]

/-- Running moves, each a source and a destination. -/
def runMoves (moves : List (L × L)) (env : L → V) : L → V :=
  moves.foldl (fun env move => Function.update env move.2 (env move.1)) env

/-- The parallel assignment. -/
def assignMoves (moves : List (L × L)) (env : L → V) (l : L) : V :=
  match moves.find? (fun move => move.2 = l) with
  | some move => env move.1
  | none => env l

@[simp] theorem runMoves_nil (env : L → V) : runMoves [] env = env := rfl

@[simp] theorem runMoves_cons (move : L × L) (moves : List (L × L)) (env : L → V) :
    runMoves (move :: moves) env = runMoves moves (Function.update env move.2 (env move.1)) := rfl

theorem runMoves_append (first second : List (L × L)) (env : L → V) :
    runMoves (first ++ second) env = runMoves second (runMoves first env) :=
  List.foldl_append

/-- The destinations of the set `done` get the values of their sources. -/
def Assigns (V : Type) (junk : L → Prop) (done : ι → Prop) (src dst : ι → L)
    (moves : List (L × L)) : Prop :=
  ∀ (env : L → V) (l : L), ¬ junk l →
    (∀ i, done i → dst i = l → runMoves moves env l = env (src i)) ∧
      ((∀ i, done i → dst i ≠ l) → runMoves moves env l = env l)

namespace Assigns

variable {junk junk' : L → Prop} {done done' : ι → Prop} {src src' dst : ι → L}
  {moves : List (L × L)}

theorem nil : Assigns V junk (fun _ => False) src dst [] :=
  fun _ _ _ => ⟨fun _ done => done.elim, fun _ => rfl⟩

theorem mono (assigns : Assigns V junk done src dst moves) (less : ∀ l, junk l → junk' l) :
    Assigns V junk' done src dst moves :=
  fun env l clean => assigns env l fun isJunk => clean (less l isJunk)

theorem congr (assigns : Assigns V junk done src dst moves) (sameSet : ∀ i, done i ↔ done' i)
    (sameSrc : ∀ i, done i → src i = src' i) : Assigns V junk done' src' dst moves := by
  intro env l clean
  obtain ⟨written, kept⟩ := assigns env l clean
  constructor
  · intro i isDone isDst
    rw [← sameSrc i ((sameSet i).mpr isDone)]
    exact written i ((sameSet i).mpr isDone) isDst
  · intro none
    exact kept fun i isDone => none i ((sameSet i).mp isDone)

/-- A move in front, to a destination that the assignment neither reads nor writes. -/
theorem push [DecidableEq ι] (assigns : Assigns V junk done src dst moves) (i : ι) (a : L)
    (unread : ∀ j, done j → src j ≠ dst i) (unwritten : ∀ j, done j → dst j ≠ dst i) :
    Assigns V junk (fun j => done j ∨ j = i) (Function.update src i a) dst
      ((a, dst i) :: moves) := by
  intro env l clean
  obtain ⟨written, kept⟩ := assigns (Function.update env (dst i) (env a)) l clean
  rw [runMoves_cons]
  have fresh : ∀ j, done j → j ≠ i := by
    rintro j isDone rfl
    exact unwritten j isDone rfl
  constructor
  · rintro j (isDone | rfl) isDst
    · rw [written j isDone isDst, Function.update_of_ne (unread j isDone),
        Function.update_of_ne (fresh j isDone)]
    · rw [Function.update_self, kept fun k isDone => isDst ▸ unwritten k isDone, ← isDst,
        Function.update_self]
  · intro none
    rw [kept fun j isDone => none j (.inl isDone), Function.update_of_ne (none i (.inr rfl)).symm]

/-- A move in front that keeps its own source. -/
theorem pushSelf [DecidableEq ι] (assigns : Assigns V junk done src dst moves) (i : ι)
    (unread : ∀ j, done j → src j ≠ dst i) (unwritten : ∀ j, done j → dst j ≠ dst i) :
    Assigns V junk (fun j => done j ∨ j = i) src dst ((src i, dst i) :: moves) := by
  have pushed := assigns.push i (src i) unread unwritten
  rwa [Function.update_eq_self] at pushed

/-- A source saved in a location `s` that only one move of the assignment reads. -/
theorem save [DecidableEq ι] {s : L} (i : ι)
    (assigns : Assigns V junk done (Function.update src i s) dst moves) (isJunk : junk s)
    (unread : ∀ j, src j ≠ s) : Assigns V junk done src dst ((src i, s) :: moves) := by
  intro env l clean
  obtain ⟨written, kept⟩ := assigns (Function.update env s (env (src i))) l clean
  have differ : l ≠ s := by
    rintro rfl
    exact clean isJunk
  rw [runMoves_cons]
  constructor
  · intro j isDone isDst
    rw [written j isDone isDst]
    by_cases same : j = i
    · rw [same, Function.update_self, Function.update_self]
    · rw [Function.update_of_ne same, Function.update_of_ne (unread j)]
  · intro none
    rw [kept none, Function.update_of_ne differ]

/-- Moves that read no destination of a move before them have their effect in any order. -/
theorem of_pairwise {moves : List (L × L)}
    (disjoint : moves.Pairwise fun a b => a.2 ≠ b.2 ∧ b.1 ≠ a.2) :
    Assigns V (fun _ => False) (· ∈ moves) Prod.fst Prod.snd moves := by
  induction moves with
  | nil =>
    have empty : Assigns V (fun _ => False) (fun _ : L × L => False) Prod.fst Prod.snd [] := nil
    exact empty.congr (by simp) (fun _ _ => rfl)
  | cons move rest ih =>
    obtain ⟨first, later⟩ := List.pairwise_cons.mp disjoint
    have pushed := (ih later).pushSelf move (fun other member => (first other member).2)
      fun other member => (first other member).1.symm
    apply pushed.congr
    · intro other
      rw [List.mem_cons, or_comm]
    · intro other _
      rfl

/-- The set of the assignment is the set of the moves that change something. -/
theorem eq_assignMoves (assigns : Assigns V junk done src dst moves) {whole : List (L × L)}
    (distinct : ∀ a ∈ whole, ∀ b ∈ whole, a.2 = b.2 → a = b)
    (covered : ∀ i, done i → (src i, dst i) ∈ whole)
    (complete : ∀ a ∈ whole, a.1 = a.2 ∨ ∃ i, done i ∧ (src i, dst i) = a)
    (env : L → V) {l : L} (clean : ¬ junk l) : runMoves moves env l = assignMoves whole env l := by
  obtain ⟨written, kept⟩ := assigns env l clean
  unfold assignMoves
  cases found : whole.find? fun move => move.2 = l with
  | none =>
    have missing := List.find?_eq_none.mp found
    exact kept fun i isDone isDst => missing _ (covered i isDone) (by simpa using isDst)
  | some move =>
    have member := List.mem_of_find?_eq_some found
    have isDst : move.2 = l := by simpa using List.find?_some found
    by_cases writes : ∃ i, done i ∧ dst i = l
    · obtain ⟨i, isDone, toL⟩ := writes
      obtain rfl := distinct _ (covered i isDone) move member (toL.trans isDst.symm)
      exact written i isDone toL
    · rcases complete move member with same | ⟨i, isDone, rfl⟩
      · show _ = env move.1
        rw [same, isDst]
        exact kept fun i isDone toL => writes ⟨i, isDone, toL⟩
      · exact absurd ⟨i, isDone, isDst⟩ writes

end Assigns

end AnonCompiler.Lib
