import Mathlib.Logic.Relation

/-!
# Assembly text and how it runs

A routine written in assembly is a list of lines, labels and instructions.  A state of a
run is the rest of the text from the next line on together with the machine state; an
instruction either goes on with the next line or to a label, and one without a successor
ends the run.  Runs are deterministic (`Assembly.Reaches.of_stopped`).
-/

set_option autoImplicit false

namespace AnonCompiler.Lib

inductive Line (L I : Type) where
  | label (l : L)
  | instr (i : I)
deriving DecidableEq, Repr

/-- Where an instruction goes, with the machine state it leaves. -/
inductive Goes (L S : Type) where
  | next (s : S)
  | goto (l : L) (s : S)

/-- The lines behind a label. -/
def behind {L I : Type} [DecidableEq L] (l : L) : List (Line L I) → Option (List (Line L I))
  | [] => none
  | .label l' :: rest => if l' = l then some rest else behind l rest
  | .instr _ :: rest => behind l rest

structure Assembly (L I S : Type) where
  text : List (Line L I)
  /-- `none` for an instruction that ends the run. -/
  exec : I → S → Option (Goes L S)

namespace Assembly

variable {L I S : Type} [DecidableEq L] (A : Assembly L I S)

def step : List (Line L I) × S → Option (List (Line L I) × S)
  | ([], _) => none
  | (.label _ :: rest, s) => some (rest, s)
  | (.instr i :: rest, s) =>
    match A.exec i s with
    | none => none
    | some (.next s) => some (rest, s)
    | some (.goto l s) => (behind l A.text).map fun lines => (lines, s)

def Reaches : List (Line L I) × S → List (Line L I) × S → Prop :=
  Relation.ReflTransGen fun c d => A.step c = some d

variable {A} {rest lines : List (Line L I)} {s t : S} {i : I} {l : L} {c d e : List (Line L I) × S}

namespace Reaches

theorem refl : A.Reaches c c := Relation.ReflTransGen.refl

theorem trans (first : A.Reaches c d) (second : A.Reaches d e) : A.Reaches c e :=
  Relation.ReflTransGen.trans first second

theorem label (then_ : A.Reaches (rest, s) d) : A.Reaches (.label l :: rest, s) d :=
  .head rfl then_

theorem next (ran : A.exec i s = some (.next t)) (then_ : A.Reaches (rest, t) d) :
    A.Reaches (.instr i :: rest, s) d :=
  .head (by simp only [step, ran]) then_

theorem goto (ran : A.exec i s = some (.goto l t)) (found : behind l A.text = some lines)
    (then_ : A.Reaches (lines, t) d) : A.Reaches (.instr i :: rest, s) d :=
  .head (by simp only [step, ran, found, Option.map_some]) then_

/-- A run that stops goes through every state that is reached. -/
theorem of_stopped (there : A.Reaches c d) (ends : A.Reaches c e) (stopped : A.step e = none) :
    A.Reaches d e := by
  have unique : Relator.RightUnique fun c d => A.step c = some d := by
    intro a b b' first second
    exact Option.some.inj (first.symm.trans second)
  rcases Relation.ReflTransGen.total_of_right_unique unique there ends with after | before
  · exact after
  · obtain rfl | ⟨f, stepped, -⟩ := Relation.ReflTransGen.cases_head before
    · exact refl
    · exact absurd (stopped.symm.trans stepped) (by simp)

/-- What every step keeps, a run keeps. -/
theorem invariant {Q : S → Prop} (ran : A.Reaches c d)
    (keeps : ∀ i s t, Q s →
      (A.exec i s = some (.next t) ∨ ∃ l, A.exec i s = some (.goto l t)) → Q t)
    (holds : Q c.2) : Q d.2 := by
  induction ran with
  | refl => exact holds
  | @tail d e _ stepped ih =>
    obtain ⟨lines, s⟩ := d
    match lines, stepped with
    | .label _ :: rest, stepped =>
      cases stepped
      exact ih
    | .instr i :: rest, stepped =>
      simp only [step] at stepped
      split at stepped
      · cases stepped
      · next ran =>
          cases stepped
          exact keeps i s _ ih (.inl ran)
      · next l t ran =>
          obtain ⟨lines, -, rfl⟩ := Option.map_eq_some_iff.mp stepped
          exact keeps i s _ ih (.inr ⟨l, ran⟩)

end Reaches

end Assembly

end AnonCompiler.Lib
