import AnonCompiler.Lib.Grammar

/-!
# Telling right-hand sides apart by their first tokens

A lookahead gives, for each nonterminal, whether it may derive no token, the tokens it
may start with, the tokens that may follow it, and a rank.  Tables are a lookahead that
is closed under the rules of a grammar: it bounds what a forest can start with
(`Tables.startsIn`), so a sentential form whose symbols are followed only by what the
tables allow, and whose left corners have a lower rank, is readable
(`Tables.reads_sentence`).  They also carry the proof that the next token decides
between the right-hand sides of a nonterminal, but for a list of conflicts, which a
grammar has to tell apart in its own way (`Tables.reads_node`).
-/

set_option autoImplicit false

namespace AnonCompiler.Lib

variable {T N : Type} [DecidableEq T]

structure Lookahead (T N : Type) where
  nullable : N → Bool
  first : N → List T
  follow : N → T → Bool
  rank : N → ℕ

namespace Lookahead

variable (tables : Lookahead T N)

/-- No symbol has to derive a token. -/
def nullableAll : List (Symbol T N) → Bool
  | [] => true
  | .terminal _ :: _ => false
  | .nonterminal n :: rest => tables.nullable n && nullableAll rest

/-- The tokens that a sentential form may start with. -/
def starts : List (Symbol T N) → List T
  | [] => []
  | .terminal t :: _ => [t]
  | .nonterminal n :: rest => tables.first n ++ if tables.nullable n then starts rest else []

/-- The tokens that a sentential form followed by a token of the set may start with. -/
def heads (P : T → Bool) (α : List (Symbol T N)) (t : T) : Bool :=
  t ∈ tables.starts α || tables.nullableAll α && P t

/-- Every nonterminal of the form is followed by tokens of its own follow set. -/
def Follows (P : T → Bool) : List (Symbol T N) → Prop
  | [] => True
  | .terminal _ :: rest => Follows P rest
  | .nonterminal n :: rest =>
    ((∀ t ∈ tables.starts rest, tables.follow n t) ∧
      (tables.nullableAll rest → ∀ t, P t → tables.follow n t)) ∧ Follows P rest

/-- The nonterminals that the first token of the form may belong to have a rank below `r`. -/
def CornersBelow (r : ℕ) : List (Symbol T N) → Prop
  | [] => True
  | .terminal _ :: _ => True
  | .nonterminal n :: rest => tables.rank n < r ∧ (tables.nullable n → CornersBelow r rest)

instance decidableFollows [Fintype T] (P : T → Bool) :
    (α : List (Symbol T N)) → Decidable (tables.Follows P α)
  | [] => .isTrue trivial
  | .terminal _ :: rest => decidableFollows P rest
  | .nonterminal n :: rest =>
    have := decidableFollows P rest
    inferInstanceAs (Decidable (((∀ t ∈ tables.starts rest, tables.follow n t) ∧
      (tables.nullableAll rest → ∀ t, P t → tables.follow n t)) ∧ tables.Follows P rest))

instance decidableCornersBelow (r : ℕ) :
    (α : List (Symbol T N)) → Decidable (tables.CornersBelow r α)
  | [] => .isTrue trivial
  | .terminal _ :: _ => .isTrue trivial
  | .nonterminal n :: rest =>
    have := decidableCornersBelow r rest
    inferInstanceAs (Decidable (tables.rank n < r ∧
      (tables.nullable n → tables.CornersBelow r rest)))

/-- The first tokens decide between the two forms. -/
def DistinctHeads (P Q : T → Bool) (α β : List (Symbol T N)) : Prop :=
  ¬ (tables.nullableAll α ∧ tables.nullableAll β) ∧
    (∀ t ∈ tables.starts α, t ∉ tables.starts β ∧ ¬ (tables.nullableAll β ∧ Q t)) ∧
      ∀ t ∈ tables.starts β, ¬ (tables.nullableAll α ∧ P t)

instance decidableDistinctHeads (P Q : T → Bool) (α β : List (Symbol T N)) :
    Decidable (tables.DistinctHeads P Q α β) :=
  inferInstanceAs (Decidable (_ ∧ _ ∧ _))

/-- The symbols of every right-hand side are followed by what they allow and have left corners
of a lower rank. -/
def Ranked (G : Grammar T N) (n : N) : Prop :=
  ∀ rhs ∈ G.rules n, tables.Follows (tables.follow n) rhs ∧ tables.CornersBelow (tables.rank n) rhs

instance decidableRanked [Fintype T] (G : Grammar T N) (n : N) : Decidable (tables.Ranked G n) :=
  inferInstanceAs (Decidable (∀ rhs ∈ G.rules n, _))

variable {tables}

variable {P : T → Bool}

theorem heads_iff {α : List (Symbol T N)} {t : T} :
    tables.heads P α t ↔ t ∈ tables.starts α ∨ tables.nullableAll α ∧ P t := by
  simp [heads]

theorem follows_heads {n : N} {rest : List (Symbol T N)}
    (follows : (∀ t ∈ tables.starts rest, tables.follow n t) ∧
    (tables.nullableAll rest → ∀ t, P t → tables.follow n t))
    (t : T) (head : tables.heads P rest t) : tables.follow n t := by
  rcases heads_iff.mp head with started | ⟨empty, next⟩
  · exact follows.1 t started
  · exact follows.2 empty t next

end Lookahead

open Lookahead

/-- Tables that are closed under the rules of a grammar and decide between the right-hand
sides of every nonterminal, the special nonterminals and the listed conflicts apart. -/
structure Tables (G : Grammar T N) extends Lookahead T N where
  special : N → Bool
  conflicts : List (List (Symbol T N) × List (Symbol T N))
  nullable_closed : ∀ n, ∀ rhs ∈ G.rules n, toLookahead.nullableAll rhs → nullable n
  first_closed : ∀ n, ∀ rhs ∈ G.rules n, ∀ t ∈ toLookahead.starts rhs, t ∈ first n
  ranked : ∀ n, special n = false → toLookahead.Ranked G n
  distinct : ∀ n, special n = false → ∀ rhs ∈ G.rules n, ∀ rhs' ∈ G.rules n, rhs ≠ rhs' →
    (rhs, rhs') ∉ conflicts → (rhs', rhs) ∉ conflicts →
      toLookahead.DistinctHeads (follow n) (follow n) rhs rhs'

namespace Tables

variable {G : Grammar T N} (tables : Tables G)

variable {P : T → Bool} {α : List (Symbol T N)} {n : N} {k : ℕ}

omit [DecidableEq T] in
theorem nullableAll_of_yield : {α : List (Symbol T N)} → (f : Forest G α) → f.yield = [] →
    tables.nullableAll α
  | _, .nil, _ => rfl
  | _, .node n rhs rule children rest, empty => by
      rw [Forest.yield_node, List.append_eq_nil_iff] at empty
      have child := tables.nullable_closed n rhs rule (nullableAll_of_yield children empty.1)
      simp only [nullableAll, child, nullableAll_of_yield rest empty.2, Bool.and_self]

omit [DecidableEq T] in
theorem starts_of_yield : {α : List (Symbol T N)} → (f : Forest G α) → {t : T} → {w : List T} →
    f.yield = t :: w → t ∈ tables.starts α
  | _, .terminal a rest, t, w, leads => by
      rw [Forest.yield_terminal, List.cons.injEq] at leads
      rw [starts, leads.1]
      exact List.mem_singleton_self t
  | _, .node n rhs rule children rest, t, w, leads => by
      rw [starts, List.mem_append]
      rcases empty : children.yield with _ | ⟨a, v⟩
      · right
        rw [if_pos (tables.nullable_closed n rhs rule (tables.nullableAll_of_yield children empty))]
        apply starts_of_yield rest
        rw [← leads, Forest.yield_node, empty, List.nil_append]
      · left
        rw [Forest.yield_node, empty, List.cons_append, List.cons.injEq] at leads
        rw [← leads.1]
        exact tables.first_closed n rhs rule a (starts_of_yield children empty)

/-- What a forest followed by a token of the set starts with is in the tables. -/
theorem startsIn (f : Forest G α) (s : List T) (start : StartsIn P s) :
    StartsIn (tables.heads P α) (f.yield ++ s) := by
  rcases yields : f.yield with _ | ⟨a, v⟩
  · intro t first
    exact heads_iff.mpr (.inr ⟨tables.nullableAll_of_yield f yields, start t first⟩)
  · rw [List.cons_append, startsIn_cons]
    exact heads_iff.mpr (.inl (tables.starts_of_yield f yields))

omit [DecidableEq T] in
theorem yield_ne_nil (solid : tables.nullable n = false) (f : Forest G [.nonterminal n]) :
    0 < f.yield.length := by
  apply List.length_pos_of_ne_nil
  intro empty
  have := tables.nullableAll_of_yield f empty
  simp [nullableAll, solid] at this

theorem apart {Q : T → Bool} {β : List (Symbol T N)} (distinct : tables.DistinctHeads P Q α β)
    (k : ℕ) : Apart G P Q k α β := by
  intro f g s s' start start' same _
  obtain ⟨solid, leftStarts, rightStarts⟩ := distinct
  rcases first : f.yield ++ s with _ | ⟨t, w⟩
  · have empty := List.append_eq_nil_iff.mp first
    have empty' := List.append_eq_nil_iff.mp (same ▸ first)
    exact solid ⟨tables.nullableAll_of_yield f empty.1, tables.nullableAll_of_yield g empty'.1⟩
  · have left := tables.startsIn f s start
    have right := tables.startsIn g s' start'
    rw [← same, first, startsIn_cons, heads_iff] at right
    rw [first, startsIn_cons, heads_iff] at left
    rcases left with left | left <;> rcases right with right | right
    · exact (leftStarts t left).1 right
    · exact (leftStarts t left).2 right
    · exact rightStarts t right left
    · exact solid ⟨left.1, right.1⟩

/-- A form that starts behind a token is read with fewer tokens. -/
theorem reads_shorter (shorter : ∀ m, Reads G (tables.follow m) k [.nonterminal m]) :
    (α : List (Symbol T N)) → tables.Follows P α → Reads G P k α
  | [], _ => reads_nil
  | .terminal t :: rest, follows =>
    (Reads.terminal t (reads_shorter shorter rest follows)).le (by omega)
  | .nonterminal n :: rest, follows =>
    Reads.cons (shorter n) (reads_shorter shorter rest follows.2) (fun _ => Nat.le_add_right _ _)
      fun f s start => (tables.startsIn f s start).mono (follows_heads follows.1)

theorem reads_sentence {r : ℕ} (shorter : ∀ m, Reads G (tables.follow m) k [.nonterminal m])
    (lower : ∀ m, tables.rank m < r → Reads G (tables.follow m) (k + 1) [.nonterminal m]) :
    (α : List (Symbol T N)) → tables.Follows P α → tables.CornersBelow r α → Reads G P (k + 1) α
  | [], _, _ => reads_nil
  | .terminal t :: rest, follows, _ => Reads.terminal t (tables.reads_shorter shorter rest follows)
  | .nonterminal n :: rest, follows, corners => by
      have after (f : Forest G rest) (s : List T) (start : StartsIn P s) :
          StartsIn (tables.follow n) (f.yield ++ s) :=
        (tables.startsIn f s start).mono (follows_heads follows.1)
      cases nullable : tables.nullable n with
      | true =>
        have rests := reads_sentence shorter lower rest follows.2 (corners.2 nullable)
        exact Reads.cons (lower n corners.1) rests (fun _ => Nat.le_add_right _ _) after
      | false =>
        have rests := tables.reads_shorter shorter rest follows.2
        refine Reads.cons (lower n corners.1) rests (fun f => ?_) after
        have := tables.yield_ne_nil nullable f
        omega

/-- A nonterminal is readable when its right-hand sides start with different tokens or are told
apart otherwise. -/
theorem reads_node (plain : tables.special n = false)
    (shorter : ∀ m, Reads G (tables.follow m) k [.nonterminal m])
    (lower : ∀ m, tables.rank m < tables.rank n →
    Reads G (tables.follow m) (k + 1) [.nonterminal m])
    (conflict : ∀ rhs ∈ G.rules n, ∀ rhs' ∈ G.rules n, (rhs, rhs') ∈ tables.conflicts →
    Apart G (tables.follow n) (tables.follow n) (k + 1) rhs rhs') :
    Reads G (tables.follow n) (k + 1) [.nonterminal n] := by
  apply Lib.reads_node
  · intro rhs rule
    obtain ⟨follows, corners⟩ := tables.ranked n plain rhs rule
    exact tables.reads_sentence shorter lower rhs follows corners
  · intro rhs rule rhs' rule' differ
    by_cases listed : (rhs, rhs') ∈ tables.conflicts
    · exact conflict rhs rule rhs' rule' listed
    by_cases listed' : (rhs', rhs) ∈ tables.conflicts
    · exact (conflict rhs' rule' rhs rule listed').symm
    exact tables.apart (tables.distinct n plain rhs rule rhs' rule' differ listed listed') (k + 1)

end Tables

end AnonCompiler.Lib
