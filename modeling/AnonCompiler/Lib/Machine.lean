import Mathlib.Logic.Relation
import Mathlib.Data.List.Basic

/-!
# Deterministic machines with a visible history

A machine is a partial step function together with the history of the events
it has emitted so far.  A step is silent, or it appends one event.

Two machines show the same behaviour from two states when they run through the
same histories and stop with the same histories.  The proof rule is a forward
simulation in which every step of the first machine is answered by at least
one step of the second (`Machine.PlusSimulation`).  The demand for at least
one step is what excludes that the first machine spins silently while the
second one goes on, and because both machines are deterministic the forward
simulation already gives both directions (`Machine.PlusSimulation.behaves`).
-/

set_option autoImplicit false

namespace AnonCompiler.Lib

universe u v

/-- A partial step function whose states carry the events emitted so far. -/
structure Machine (Event : Type u) where
  State : Type v
  step : State → Option State
  history : State → List Event
  grows : ∀ {s t : State}, step s = some t →
    history t = history s ∨ ∃ event, history t = history s ++ [event]

namespace Machine

variable {Event : Type u}

/-- Exactly `count` steps, when the machine does not stop earlier. -/
def run (M : Machine Event) : Nat → M.State → Option M.State
  | 0, s => some s
  | count + 1, s => (M.step s).bind (M.run count)

/-- Finitely many steps. -/
def Steps (M : Machine Event) (s t : M.State) : Prop := ∃ count, M.run count s = some t

/-- At least one step. -/
def StepsPlus (M : Machine Event) (s t : M.State) : Prop :=
  ∃ count, M.run (count + 1) s = some t

/-- Finitely many steps that emit nothing. -/
def Silent (M : Machine Event) (s t : M.State) : Prop := M.Steps s t ∧ M.history t = M.history s

/-- At least one step, and none that emits. -/
def SilentPlus (M : Machine Event) (s t : M.State) : Prop :=
  M.StepsPlus s t ∧ M.history t = M.history s

/-- Some run from `s` has the given history. -/
def Reaches (M : Machine Event) (s : M.State) (events : List Event) : Prop :=
  ∃ t, M.Steps s t ∧ M.history t = events

/-- The run from `s` stops, and has the given history then. -/
def Halts (M : Machine Event) (s : M.State) (events : List Event) : Prop :=
  ∃ t, M.Steps s t ∧ M.step t = none ∧ M.history t = events

variable {M : Machine Event} {s t r : M.State}

theorem run_add (m n : Nat) (s : M.State) : M.run (m + n) s = (M.run m s).bind (M.run n) := by
  induction m generalizing s with
  | zero => simp [run]
  | succ m ih =>
    rw [Nat.succ_add]
    simp only [run]
    cases M.step s with
    | none => rfl
    | some next => simpa using ih next

namespace Steps

theorem refl (s : M.State) : M.Steps s s := ⟨0, rfl⟩

theorem single (h : M.step s = some t) : M.Steps s t := ⟨1, by simp [run, h]⟩

theorem trans (first : M.Steps s t) (second : M.Steps t r) : M.Steps s r := by
  obtain ⟨m, hm⟩ := first
  obtain ⟨n, hn⟩ := second
  exact ⟨m + n, by simp [run_add, hm, hn]⟩

end Steps

theorem StepsPlus.steps (h : M.StepsPlus s t) : M.Steps s t := by
  obtain ⟨count, hrun⟩ := h
  exact ⟨count + 1, hrun⟩

theorem StepsPlus.trans_steps (first : M.StepsPlus s t) (second : M.Steps t r) :
    M.StepsPlus s r := by
  obtain ⟨m, hm⟩ := first
  obtain ⟨n, hn⟩ := second
  exact ⟨m + n, by rw [show m + n + 1 = (m + 1) + n by omega, run_add, hm]; simpa using hn⟩

theorem StepsPlus.single (h : M.step s = some t) : M.StepsPlus s t := ⟨0, by simp [run, h]⟩

namespace Silent

theorem refl (s : M.State) : M.Silent s s := ⟨.refl s, rfl⟩

theorem trans (first : M.Silent s t) (second : M.Silent t r) : M.Silent s r :=
  ⟨first.1.trans second.1, second.2.trans first.2⟩

end Silent

theorem SilentPlus.silent (h : M.SilentPlus s t) : M.Silent s t := ⟨h.1.steps, h.2⟩

theorem SilentPlus.trans_silent (first : M.SilentPlus s t) (second : M.Silent t r) :
    M.SilentPlus s r :=
  ⟨first.1.trans_steps second.1, second.2.trans first.2⟩

theorem SilentPlus.single (h : M.step s = some t) (quiet : M.history t = M.history s) :
    M.SilentPlus s t := ⟨.single h, quiet⟩

/-- Histories only grow. -/
theorem run_history {count : Nat} {s t : M.State} (h : M.run count s = some t) :
    ∃ rest, M.history t = M.history s ++ rest := by
  induction count generalizing s with
  | zero =>
    obtain rfl : s = t := by simpa [run] using h
    exact ⟨[], by simp⟩
  | succ count ih =>
    simp only [run, Option.bind_eq_some_iff] at h
    obtain ⟨next, hstep, hrest⟩ := h
    obtain ⟨rest, hr⟩ := ih hrest
    rcases M.grows hstep with same | ⟨event, more⟩
    · exact ⟨rest, by rw [hr, same]⟩
    · exact ⟨event :: rest, by rw [hr, more]; simp⟩

/-- Two runs from one state: the shorter one is an initial part of the longer. -/
theorem run_split {m n : Nat} (le : m ≤ n) (h₁ : M.run m s = some t) (h₂ : M.run n s = some r) :
    M.run (n - m) t = some r := by
  have whole : M.run (m + (n - m)) s = some r := by rwa [Nat.add_sub_cancel' le]
  rw [run_add, h₁] at whole
  simpa using whole

/-- A machine that has stopped makes no further step. -/
theorem run_of_halted {n : Nat} (halted : M.step s = none) (h : M.run n s = some t) :
    n = 0 ∧ t = s := by
  cases n with
  | zero => exact ⟨rfl, by simpa [run] using h.symm⟩
  | succ n => simp [run, halted] at h

/-- Every state on a silent run has the history of its ends. -/
theorem history_between {m n : Nat} (le : m ≤ n) (h₁ : M.run m s = some t)
    (h₂ : M.run n s = some r) (quiet : M.history r = M.history s) : M.history t = M.history s := by
  obtain ⟨before, hb⟩ := run_history h₁
  obtain ⟨after, ha⟩ := run_history (run_split le h₁ h₂)
  have lengths := congrArg List.length (ha.symm.trans quiet)
  rw [hb] at lengths
  simp only [List.length_append] at lengths
  have nothing : before = [] := List.eq_nil_of_length_eq_zero (by omega)
  rw [hb, nothing, List.append_nil]

/-- A silent run changes neither the histories that lie ahead nor the way the
machine stops, apart from the histories it has already been through. -/
theorem Silent.reaches_iff (quiet : M.Silent s t) (events : List Event) :
    M.Reaches s events ↔ M.Reaches t events := by
  obtain ⟨⟨m, hm⟩, same⟩ := quiet
  constructor
  · rintro ⟨r, ⟨n, hn⟩, hist⟩
    rcases Nat.le_total m n with le | le
    · exact ⟨r, ⟨n - m, run_split le hm hn⟩, hist⟩
    · exact ⟨t, .refl t, by rw [same, ← hist, history_between le hn hm same]⟩
  · rintro ⟨r, more, hist⟩
    exact ⟨r, Steps.trans ⟨m, hm⟩ more, hist⟩

theorem Silent.halts_iff (quiet : M.Silent s t) (events : List Event) :
    M.Halts s events ↔ M.Halts t events := by
  obtain ⟨⟨m, hm⟩, same⟩ := quiet
  constructor
  · rintro ⟨r, ⟨n, hn⟩, halted, hist⟩
    rcases Nat.le_total m n with le | le
    · exact ⟨r, ⟨n - m, run_split le hm hn⟩, halted, hist⟩
    · obtain ⟨-, rfl⟩ := run_of_halted halted (run_split le hn hm)
      exact ⟨t, .refl t, halted, hist⟩
  · rintro ⟨r, more, halted, hist⟩
    exact ⟨r, Steps.trans ⟨m, hm⟩ more, halted, hist⟩

/-- The two machines run through the same histories, and stop with the same
histories. -/
structure Behaves (A : Machine Event) (B : Machine Event) (a : A.State) (b : B.State) :
    Prop where
  reaches : ∀ events, A.Reaches a events ↔ B.Reaches b events
  halts : ∀ events, A.Halts a events ↔ B.Halts b events

theorem Behaves.of_silent {A B : Machine Event} {a : A.State} {b b' : B.State}
    (quiet : B.Silent b b') (same : Behaves A B a b') : Behaves A B a b where
  reaches events := (same.reaches events).trans (quiet.reaches_iff events).symm
  halts events := (same.halts events).trans (quiet.halts_iff events).symm

/-- A forward simulation in which every step is answered by at least one. -/
structure PlusSimulation (A B : Machine Event) (related : A.State → B.State → Prop) : Prop where
  history : ∀ {a b}, related a b → A.history a = B.history b
  step : ∀ {a b a'}, related a b → A.step a = some a' →
    ∃ b', B.StepsPlus b b' ∧ related a' b'
  halt : ∀ {a b}, related a b → A.step a = none →
    ∃ b', B.Silent b b' ∧ B.step b' = none

namespace PlusSimulation

variable {A B : Machine Event} {related : A.State → B.State → Prop}

/-- Runs of the first machine are answered by runs of the second. -/
theorem steps (sim : PlusSimulation A B related) {a a' : A.State} {b : B.State}
    (rel : related a b) (run : A.Steps a a') : ∃ b', B.Steps b b' ∧ related a' b' := by
  obtain ⟨count, hrun⟩ := run
  induction count generalizing a b with
  | zero =>
    obtain rfl : a = a' := by simpa [Machine.run] using hrun
    exact ⟨b, .refl b, rel⟩
  | succ count ih =>
    simp only [Machine.run, Option.bind_eq_some_iff] at hrun
    obtain ⟨next, hstep, hrest⟩ := hrun
    obtain ⟨b₁, plus, rel₁⟩ := sim.step rel hstep
    obtain ⟨b₂, more, rel₂⟩ := ih rel₁ hrest
    exact ⟨b₂, plus.steps.trans more, rel₂⟩

/-- A history of the second machine is one the first machine runs through: by
induction on the steps of the second machine, of which each step of the first
consumes at least one. -/
theorem backward (sim : PlusSimulation A B related) {n : Nat} :
    ∀ {a : A.State} {b b' : B.State}, related a b → B.run n b = some b' →
      ∃ a', A.Steps a a' ∧ A.history a' = B.history b' ∧
        (B.step b' = none → A.step a' = none) := by
  induction n using Nat.strongRecOn with
  | ind n ih =>
    intro a b b' rel hrun
    cases hstep : A.step a with
    | none =>
      obtain ⟨stop, ⟨⟨m, hm⟩, same⟩, halted⟩ := sim.halt rel hstep
      refine ⟨a, .refl a, ?_, fun _ => hstep⟩
      rcases Nat.le_total n m with le | le
      · rw [history_between le hrun hm same, sim.history rel]
      · obtain ⟨-, rfl⟩ := run_of_halted halted (run_split le hm hrun)
        rw [sim.history rel, same]
    | some next =>
      obtain ⟨b₁, ⟨m, hm⟩, rel₁⟩ := sim.step rel hstep
      rcases Nat.lt_or_ge n (m + 1) with lt | le
      · -- `b'` lies strictly inside the answer to one step of the first machine
        obtain ⟨before, hb⟩ := run_history hrun
        obtain ⟨after, ha⟩ := run_history (run_split (Nat.le_of_lt lt) hrun hm)
        have notHalted : B.step b' ≠ none := by
          intro halted
          have := run_of_halted halted (run_split (Nat.le_of_lt lt) hrun hm)
          omega
        have ends : B.history b₁ = A.history next := (sim.history rel₁).symm
        have starts : B.history b = A.history a := (sim.history rel).symm
        cases before with
        | nil =>
          refine ⟨a, .refl a, ?_, fun halted => absurd halted notHalted⟩
          rw [hb, List.append_nil, starts]
        | cons event before =>
          refine ⟨next, .single hstep, ?_, fun halted => absurd halted notHalted⟩
          rcases A.grows hstep with same | ⟨event', more⟩
          · exfalso
            have lengths := congrArg List.length (ha.symm.trans (ends.trans same))
            rw [hb, starts] at lengths
            simp only [List.length_append, List.length_cons] at lengths
            omega
          · have whole := ha.symm.trans (ends.trans more)
            rw [hb, starts, List.append_assoc] at whole
            have tails := List.append_cancel_left whole
            simp only [List.cons_append, List.cons.injEq, List.append_eq_nil_iff] at tails
            obtain ⟨rfl, rfl, rfl⟩ := tails
            rw [hb, starts, more]
      · obtain ⟨a', more, hist, stops⟩ :=
          ih (n - (m + 1)) (by omega) rel₁ (run_split le hm hrun)
        exact ⟨a', (Steps.single hstep).trans more, hist, stops⟩

/-- The rule: related states behave alike. -/
theorem behaves (sim : PlusSimulation A B related) {a : A.State} {b : B.State}
    (rel : related a b) : Behaves A B a b where
  reaches events := by
    constructor
    · rintro ⟨a', run, hist⟩
      obtain ⟨b', more, rel'⟩ := sim.steps rel run
      exact ⟨b', more, (sim.history rel').symm.trans hist⟩
    · rintro ⟨b', ⟨n, hn⟩, hist⟩
      obtain ⟨a', run, same, -⟩ := sim.backward rel hn
      exact ⟨a', run, same.trans hist⟩
  halts events := by
    constructor
    · rintro ⟨a', run, halted, hist⟩
      obtain ⟨b', more, rel'⟩ := sim.steps rel run
      obtain ⟨stop, ⟨quiet, same⟩, stopped⟩ := sim.halt rel' halted
      exact ⟨stop, more.trans quiet, stopped, by rw [same, ← sim.history rel', hist]⟩
    · rintro ⟨b', ⟨n, hn⟩, halted, hist⟩
      obtain ⟨a', run, same, stops⟩ := sim.backward rel hn
      exact ⟨a', run, stops halted, same.trans hist⟩

end PlusSimulation

end Machine

end AnonCompiler.Lib
