import Mathlib.Computability.ContextFreeGrammar
import Mathlib.Tactic

/-!
# Grammars, their derivations as forests, and readability

A grammar lists the right-hand sides of each nonterminal.  A derivation of a
sentential form is a forest with one tree for each symbol; forests are the
derivations of a context-free grammar up to the order in which nonterminals are
replaced (`derives_iff_forest`), so a token sequence with one forest is a token
sequence with one derivation.

A sentential form is readable when a token sequence fixes both a forest whose
yield starts it and the place where that yield ends, as long as what follows may
only start with tokens of a given set.  Readability is proved by one induction
(`reads_induction`): on the number of tokens, and for a fixed number on the rank of
the left corners.  Two right-hand sides are told apart by their first tokens where
these are disjoint, and a left-recursive nonterminal whose rules
chain operands by an operator is read from left to right (`reads_chain`).
-/

set_option autoImplicit false

namespace AnonCompiler.Lib

/-- The right-hand sides of each nonterminal. -/
structure Grammar (T N : Type) where
  rules : N → List (List (Symbol T N))

variable {T N : Type} {G : Grammar T N}

/-- The derivations of a sentential form: one tree for each symbol. -/
inductive Forest (G : Grammar T N) : List (Symbol T N) → Type
  | nil : Forest G []
  | terminal (t : T) {α : List (Symbol T N)} (rest : Forest G α) : Forest G (.terminal t :: α)
  | node (n : N) (rhs : List (Symbol T N)) (rule : rhs ∈ G.rules n) (children : Forest G rhs)
      {α : List (Symbol T N)} (rest : Forest G α) : Forest G (.nonterminal n :: α)

namespace Forest

/-- The tokens at the leaves, from left to right. -/
def yield : {α : List (Symbol T N)} → Forest G α → List T
  | _, .nil => []
  | _, .terminal t rest => t :: rest.yield
  | _, .node _ _ _ children rest => children.yield ++ rest.yield

/-- The number of nodes. -/
def size : {α : List (Symbol T N)} → Forest G α → ℕ
  | _, .nil => 0
  | _, .terminal _ rest => rest.size + 1
  | _, .node _ _ _ children rest => children.size + rest.size + 1

/-- The tree of a nonterminal that is replaced by the given right-hand side. -/
def tree (n : N) {rhs : List (Symbol T N)} (rule : rhs ∈ G.rules n) (children : Forest G rhs) :
    Forest G [.nonterminal n] :=
  .node n rhs rule children .nil

variable {rhs : List (Symbol T N)} {n : N} {t : T}

@[simp] theorem yield_nil : (nil : Forest G []).yield = [] := rfl

@[simp] theorem yield_terminal (t : T) {α : List (Symbol T N)} (rest : Forest G α) :
    (terminal t rest).yield = t :: rest.yield := rfl

@[simp] theorem yield_node (n : N) (rhs : List (Symbol T N)) (rule : rhs ∈ G.rules n)
    (children : Forest G rhs) {α : List (Symbol T N)} (rest : Forest G α) :
    (node n rhs rule children rest).yield = children.yield ++ rest.yield := rfl

@[simp] theorem yield_tree (n : N) (rule : rhs ∈ G.rules n) (children : Forest G rhs) :
    (tree n rule children).yield = children.yield :=
  List.append_nil _

/-- The first tree of a forest. -/
def head : {s : Symbol T N} → {α : List (Symbol T N)} → Forest G (s :: α) → Forest G [s]
  | _, _, .terminal t _ => .terminal t .nil
  | _, _, .node n rhs rule children _ => .node n rhs rule children .nil

/-- The trees after the first. -/
def tail : {s : Symbol T N} → {α : List (Symbol T N)} → Forest G (s :: α) → Forest G α
  | _, _, .terminal _ rest => rest
  | _, _, .node _ _ _ _ rest => rest

/-- A tree before a forest. -/
def cons : {s : Symbol T N} → {α : List (Symbol T N)} → Forest G [s] → Forest G α → Forest G
    (s :: α)
  | _, _, .terminal t _, rest => .terminal t rest
  | _, _, .node n rhs rule children _, rest => .node n rhs rule children rest

variable {s : Symbol T N} {α β : List (Symbol T N)}

@[simp] theorem cons_head_tail (f : Forest G (s :: α)) : cons f.head f.tail = f := by
  cases f <;> rfl

@[simp] theorem head_cons (f : Forest G [s]) (rest : Forest G α) : (cons f rest).head = f := by
  cases f with
  | terminal t last =>
    cases last
    rfl
  | node n rhs rule children last =>
    cases last
    rfl

@[simp] theorem tail_cons (f : Forest G [s]) (rest : Forest G α) : (cons f rest).tail = rest := by
  cases f <;> rfl

@[simp] theorem yield_cons (f : Forest G [s]) (rest : Forest G α) :
    (cons f rest).yield = f.yield ++ rest.yield := by
  cases f with
  | terminal t last =>
    cases last
    rfl
  | node n rhs rule children last =>
    cases last
    simp [cons]

theorem yield_head_tail (f : Forest G (s :: α)) : f.head.yield ++ f.tail.yield = f.yield := by
  rw [← yield_cons, cons_head_tail]

theorem size_head_le (f : Forest G (s :: α)) : f.head.size ≤ f.size := by
  cases f with
  | terminal t rest => simp [head, size]
  | node n rhs rule children rest =>
    simp only [head, size]
    omega

theorem size_lt_tree (n : N) (rule : rhs ∈ G.rules n) (children : Forest G rhs) :
    children.size < (tree n rule children).size := by
  simp only [tree, size]
  omega

/-- Every forest of one nonterminal is a tree. -/
theorem eq_tree (f : Forest G [.nonterminal n]) :
    ∃ (rhs : List (Symbol T N)) (rule : rhs ∈ G.rules n) (children : Forest G rhs),
      f = tree n rule children := by
  cases f with
  | node n rhs rule children rest =>
    cases rest
    exact ⟨rhs, rule, children, rfl⟩

/-- The tree of a nonterminal with one right-hand side. -/
theorem eq_tree_of_rules (only : G.rules n = [rhs]) (f : Forest G [.nonterminal n]) :
    ∃ (rule : rhs ∈ G.rules n) (children : Forest G rhs), f = tree n rule children := by
  obtain ⟨rhs', rule, children, rfl⟩ := f.eq_tree
  obtain rfl : rhs' = rhs := by
    rw [only] at rule
    exact List.mem_singleton.mp rule
  exact ⟨rule, children, rfl⟩

theorem eq_nil (f : Forest G []) : f = nil := by
  cases f
  rfl

theorem terminal_tail (f : Forest G (.terminal t :: α)) : terminal t f.tail = f := by
  cases f
  rfl

theorem yield_terminal_cons (f : Forest G (.terminal t :: α)) : f.yield = t :: f.tail.yield := by
  cases f
  rfl

def append : {α β : List (Symbol T N)} → Forest G α → Forest G β → Forest G (α ++ β)
  | _, _, .nil, g => g
  | _, _, .terminal t rest, g => .terminal t (rest.append g)
  | _, _, .node n rhs rule children rest, g => .node n rhs rule children (rest.append g)

@[simp] theorem yield_append : {α β : List (Symbol T N)} → (f : Forest G α) → (g : Forest G β) →
    (f.append g).yield = f.yield ++ g.yield
  | _, _, .nil, _ => rfl
  | _, _, .terminal t rest, g => congrArg (t :: ·) (yield_append rest g)
  | _, _, .node _ _ _ children rest, g => by
      simp only [append, yield_node, yield_append rest g, List.append_assoc]

/-- A forest of two sentential forms is a forest of each. -/
theorem exists_split : {α β : List (Symbol T N)} → (f : Forest G (α ++ β)) →
    ∃ (g : Forest G α) (h : Forest G β), f.yield = g.yield ++ h.yield
  | [], _, f => ⟨.nil, f, rfl⟩
  | s :: α, β, f => by
      obtain ⟨g, h, split⟩ := exists_split (show Forest G (α ++ β) from f.tail)
      refine ⟨cons f.head g, h, ?_⟩
      rw [yield_cons, List.append_assoc, ← split]
      exact (yield_head_tail (show Forest G (s :: (α ++ β)) from f)).symm

def ofTerminals : (w : List T) → Forest G (w.map .terminal)
  | [] => .nil
  | t :: w => .terminal t (ofTerminals w)

@[simp] theorem yield_ofTerminals : (w : List T) → (ofTerminals (G := G) w).yield = w
  | [] => rfl
  | t :: w => congrArg (t :: ·) (yield_ofTerminals w)

end Forest

/-! ## Forests are derivations -/

section Derivations

variable [Fintype N] [DecidableEq T] [DecidableEq N]

/-- The context-free grammar with the listed rules. -/
abbrev Grammar.toCFG (G : Grammar T N) (start : N) : ContextFreeGrammar T where
  NT := N
  initial := start
  rules := Finset.univ.biUnion fun n => ((G.rules n).map (ContextFreeRule.mk n)).toFinset

variable {start : N}

variable {α : List (Symbol T N)} {w : List T}

theorem Grammar.mem_toCFG {rule : ContextFreeRule T N} :
    rule ∈ (G.toCFG start).rules ↔ rule.output ∈ G.rules rule.input := by
  obtain ⟨input, output⟩ := rule
  simp only [Finset.mem_biUnion, Finset.mem_univ, true_and, List.mem_toFinset, List.mem_map]
  constructor
  · rintro ⟨n, rhs, listed, same⟩
    cases same
    exact listed
  · intro listed
    exact ⟨input, output, listed, rfl⟩

theorem Forest.derives : {α : List (Symbol T N)} → (f : Forest G α) →
    (G.toCFG start).Derives α (f.yield.map .terminal)
  | _, .nil => .refl _
  | _, .terminal t rest => rest.derives.append_left [.terminal t]
  | _, .node n rhs rule children rest => by
      have replaced : (G.toCFG start).Produces [.nonterminal n] rhs :=
        ⟨⟨n, rhs⟩, Grammar.mem_toCFG.mpr rule, ContextFreeRule.Rewrites.input_output⟩
      rw [Forest.yield_node, List.map_append]
      exact ((replaced.trans_derives children.derives).append_right _).trans
        (rest.derives.append_left _)

theorem exists_forest (derivation : (G.toCFG start).Derives α (w.map .terminal)) :
    ∃ f : Forest G α, f.yield = w := by
  -- from the last step of the derivation back to the first
  induction derivation using Relation.ReflTransGen.head_induction_on with
  | refl => exact ⟨.ofTerminals w, Forest.yield_ofTerminals w⟩
  | head step _ ih =>
    obtain ⟨f, yields⟩ := ih
    obtain ⟨rule, listed, rewrites⟩ := step
    obtain ⟨p, q, before, after⟩ := rewrites.exists_parts
    subst before after
    obtain ⟨front, back, split⟩ := f.exists_split
    obtain ⟨left, middle, split'⟩ := front.exists_split
    refine ⟨(left.append (.tree rule.input (Grammar.mem_toCFG.mp listed) middle)).append back, ?_⟩
    rw [← yields, split, split', Forest.yield_append, Forest.yield_append, Forest.yield_tree]

/-- Forests are the derivations of the context-free grammar. -/
theorem derives_iff_forest :
    (G.toCFG start).Derives α (w.map .terminal) ↔ ∃ f : Forest G α, f.yield = w := by
  refine ⟨exists_forest, ?_⟩
  rintro ⟨f, rfl⟩
  exact f.derives

end Derivations

/-! ## Readability -/

/-- The tokens may start with a token of the set only; they may be none. -/
def StartsIn (P : T → Bool) (s : List T) : Prop := ∀ t ∈ s.head?, P t

@[simp] theorem startsIn_nil (P : T → Bool) : StartsIn P [] := by simp [StartsIn]

@[simp] theorem startsIn_cons (P : T → Bool) (t : T) (s : List T) : StartsIn P (t :: s) ↔ P t := by
  simp [StartsIn]

theorem StartsIn.mono {P Q : T → Bool} {s : List T} (start : StartsIn P s) (sub : ∀ t, P t → Q t) :
    StartsIn Q s := fun t first => sub t (start t first)

/-- Fewer than `k` tokens that start with a forest of `α` and go on with a token of the set
fix the forest and where its yield ends. -/
def Reads (G : Grammar T N) (P : T → Bool) (k : ℕ) (α : List (Symbol T N)) : Prop :=
  ∀ (f g : Forest G α) (s s' : List T), StartsIn P s → StartsIn P s' →
    f.yield ++ s = g.yield ++ s' → (f.yield ++ s).length < k → f = g ∧ s = s'

/-- No fewer than `k` tokens start with forests of both forms. -/
def Apart (G : Grammar T N) (P Q : T → Bool) (k : ℕ) (α β : List (Symbol T N)) : Prop :=
  ∀ (f : Forest G α) (g : Forest G β) (s s' : List T), StartsIn P s → StartsIn Q s' →
    f.yield ++ s = g.yield ++ s' → (f.yield ++ s).length < k → False

section Reading

variable {P Q : T → Bool} {k : ℕ} {α β : List (Symbol T N)}

theorem Reads.le {k' : ℕ} (reads : Reads G P k α) (le : k' ≤ k) : Reads G P k' α :=
  fun f g s s' start start' same short => reads f g s s' start start' same (short.trans_le le)

theorem Apart.symm (apart : Apart G P Q k α β) : Apart G Q P k β α :=
  fun f g s s' start start' same short => apart g f s' s start' start same.symm (same ▸ short)

theorem reads_nil : Reads G P k [] := by
  intro f g s s' _ _ same _
  cases f
  cases g
  exact ⟨rfl, same⟩

theorem Reads.terminal (t : T) (reads : Reads G P k α) : Reads G P (k + 1) (.terminal t :: α) := by
  intro f g s s' start start' same short
  cases f with
  | terminal t rest =>
    cases g with
    | terminal t rest' =>
      simp only [Forest.yield_terminal, List.cons_append, List.cons.injEq, true_and] at same
      simp only [Forest.yield_terminal, List.cons_append, List.length_cons,
        Nat.add_lt_add_iff_right] at short
      obtain ⟨rfl, rfl⟩ := reads rest rest' s s' start start' same short
      exact ⟨rfl, rfl⟩

/-- A tree and what follows it are read one after the other; the leaves of the tree
are no longer left for what follows. -/
theorem Reads.cons {n : N} {j : ℕ} (first : Reads G Q k [.nonterminal n]) (rest : Reads G P j α)
    (leaves : ∀ f : Forest G [.nonterminal n], k ≤ j + f.yield.length)
    (follows : ∀ (f : Forest G α) (s : List T), StartsIn P s → StartsIn Q (f.yield ++ s)) :
    Reads G P k (.nonterminal n :: α) := by
  intro f g s s' start start' same short
  rw [← Forest.yield_head_tail f] at same short
  rw [← Forest.yield_head_tail g] at same
  simp only [List.append_assoc] at same short
  obtain ⟨heads, tails⟩ :=
    first f.head g.head _ _ (follows _ _ start) (follows _ _ start') same short
  have shorter : (f.tail.yield ++ s).length < j := by
    have enough := leaves f.head
    simp only [List.length_append] at short ⊢
    omega
  obtain ⟨rests, ends⟩ := rest f.tail g.tail s s' start start' tails shorter
  refine ⟨?_, ends⟩
  rw [← Forest.cons_head_tail f, ← Forest.cons_head_tail g, heads, rests]

/-- A nonterminal is readable when its right-hand sides are readable and kept apart. -/
theorem reads_node {n : N} (each : ∀ rhs ∈ G.rules n, Reads G P k rhs)
    (apart : ∀ rhs ∈ G.rules n, ∀ rhs' ∈ G.rules n, rhs ≠ rhs' → Apart G P P k rhs rhs') :
    Reads G P k [.nonterminal n] := by
  intro f g s s' start start' same short
  obtain ⟨rhs, rule, children, rfl⟩ := f.eq_tree
  obtain ⟨rhs', rule', children', rfl⟩ := g.eq_tree
  rw [Forest.yield_tree] at same short
  rw [Forest.yield_tree] at same
  by_cases differ : rhs = rhs'
  · subst differ
    obtain ⟨rfl, rfl⟩ := each rhs rule children children' s s' start start' same short
    exact ⟨rfl, rfl⟩
  · exact (apart rhs rule rhs' rule' differ children children' s s' start start' same short).elim

/-- Readability by induction on the number of tokens, and for a fixed number on a rank. -/
theorem reads_induction (follow : N → T → Bool) (rank : N → ℕ)
    (step : ∀ k n, (∀ m, Reads G (follow m) k [.nonterminal m]) →
      (∀ m, rank m < rank n → Reads G (follow m) (k + 1) [.nonterminal m]) →
      Reads G (follow n) (k + 1) [.nonterminal n]) :
    ∀ k n, Reads G (follow n) k [.nonterminal n] := by
  intro k
  induction k with
  | zero => exact fun n f g s s' _ _ _ short => absurd short (Nat.not_lt_zero _)
  | succ k shorter =>
    intro n
    -- the rank of the left corner goes down while the tokens stay
    induction bound : rank n using Nat.strong_induction_on generalizing n with
    | _ r ih => exact step k n shorter fun m below => ih (rank m) (bound ▸ below) m rfl

end Reading

/-! ## Left-recursive chains

The rules of `n` are an operand `x`, and a chain, an operator `σ` and an operand. -/

section Chain

variable {n x : N} {σ : Symbol T N}
variable (rules : G.rules n = [[.nonterminal x], [.nonterminal n, σ, .nonterminal x]])

namespace Forest

def single (operand : Forest G [.nonterminal x]) : Forest G [.nonterminal n] :=
  .tree n (rules ▸ List.mem_cons_self) operand

def link (chain : Forest G [.nonterminal n]) (op : Forest G [σ])
    (operand : Forest G [.nonterminal x]) : Forest G [.nonterminal n] :=
  .tree n (rules ▸ List.mem_cons_of_mem _ List.mem_cons_self) (.cons chain (.cons op operand))

/-- The chain continued by operators and operands. -/
def links : Forest G [.nonterminal n] → List (Forest G [σ] × Forest G [.nonterminal x]) →
    Forest G [.nonterminal n]
  | chain, [] => chain
  | chain, (op, operand) :: more => links (chain.link rules op operand) more

theorem links_append (op : Forest G [σ]) (operand : Forest G [.nonterminal x]) :
    (more : List (Forest G [σ] × Forest G [.nonterminal x])) → (chain : Forest G [.nonterminal n]) →
    chain.links rules (more ++ [(op, operand)]) = (chain.links rules more).link rules op operand
  | [], _ => rfl
  | (op', operand') :: more, chain => links_append op operand more (chain.link rules op' operand')

/-- The tokens of the operators and operands. -/
def linksYield (more : List (Forest G [σ] × Forest G [.nonterminal x])) : List T :=
  more.flatMap fun link => link.1.yield ++ link.2.yield

theorem yield_links :
    (more : List (Forest G [σ] × Forest G [.nonterminal x])) → (chain : Forest G [.nonterminal n]) →
    (chain.links rules more).yield = chain.yield ++ linksYield more
  | [], _ => (List.append_nil _).symm
  | (op, operand) :: more, chain => by
      rw [links, yield_links more, link, yield_tree, yield_cons, yield_cons]
      simp only [linksYield, List.flatMap_cons, List.append_assoc]

/-- Every tree of the nonterminal is a chain. -/
theorem exists_links (f : Forest G [.nonterminal n]) :
    ∃ (operand : Forest G [.nonterminal x])
      (more : List (Forest G [σ] × Forest G [.nonterminal x])),
      f = (single rules operand).links rules more := by
  induction small : f.size using Nat.strong_induction_on generalizing f with
  | _ size ih =>
    obtain ⟨rhs, rule, children, rfl⟩ := f.eq_tree
    have alternatives := rule
    rw [rules, List.mem_cons, List.mem_singleton] at alternatives
    rcases alternatives with rfl | rfl
    · exact ⟨children, [], rfl⟩
    · have smaller := (size_head_le children).trans_lt (small ▸ size_lt_tree n rule children)
      obtain ⟨operand, more, chain⟩ := ih _ smaller children.head rfl
      refine ⟨operand, more ++ [(children.tail.head, children.tail.tail)], ?_⟩
      rw [links_append, ← chain, link, cons_head_tail, cons_head_tail]

end Forest

variable {P Q O : T → Bool} {k : ℕ}

/-- Operands and operators are read one after the other until no operator follows. -/
theorem reads_links (operands : Reads G Q k [.nonterminal x]) (ops : Reads G (fun _ => true) k [σ])
    (opens : ∀ (op : Forest G [σ]) (s : List T), op.yield ≠ [] ∧ StartsIn O (op.yield ++ s))
    (ends : ∀ t, P t → Q t) (continues : ∀ t, O t → Q t) (differ : ∀ t, ¬ (P t ∧ O t)) :
    (more more' : List (Forest G [σ] × Forest G [.nonterminal x])) →
    (e e' : Forest G [.nonterminal x]) → (s s' : List T) → StartsIn P s → StartsIn P s' →
    e.yield ++ (Forest.linksYield more ++ s) = e'.yield ++ (Forest.linksYield more' ++ s') →
    (e.yield ++ (Forest.linksYield more ++ s)).length < k → e = e' ∧ more = more' ∧ s = s' := by
  have follows (more : List (Forest G [σ] × Forest G [.nonterminal x])) (s : List T)
      (start : StartsIn P s) : StartsIn Q (Forest.linksYield more ++ s) := by
    cases more with
    | nil => exact start.mono ends
    | cons link more =>
      simp only [Forest.linksYield, List.flatMap_cons, List.append_assoc]
      exact (opens link.1 _).2.mono continues
  have stops (link : Forest G [σ] × Forest G [.nonterminal x]) (s w : List T) (start : StartsIn P s)
      (same : s = link.1.yield ++ w) : False := by
    obtain ⟨some_leaf, start'⟩ := opens link.1 w
    rcases yields : link.1.yield with _ | ⟨t, v⟩
    · exact some_leaf yields
    · rw [same, yields, List.cons_append, startsIn_cons] at start
      rw [yields, List.cons_append, startsIn_cons] at start'
      exact differ t ⟨start, start'⟩
  intro more
  induction more with
  | nil =>
    intro more' e e' s s' start start' same short
    obtain ⟨rfl, rest⟩ :=
      operands e e' _ _ (follows [] s start) (follows more' s' start') same short
    cases more' with
    | nil => exact ⟨rfl, rfl, rest⟩
    | cons link more' =>
      simp only [Forest.linksYield, List.flatMap_cons, List.append_assoc, List.flatMap_nil,
        List.nil_append] at rest
      exact (stops link s _ start rest).elim
  | cons link more ih =>
    intro more' e e' s s' start start' same short
    obtain ⟨rfl, rest⟩ :=
      operands e e' _ _ (follows (link :: more) s start) (follows more' s' start') same short
    cases more' with
    | nil =>
      simp only [Forest.linksYield, List.flatMap_cons, List.append_assoc, List.flatMap_nil,
        List.nil_append] at rest
      exact (stops link s' _ start' rest.symm).elim
    | cons link' more' =>
      simp only [Forest.linksYield, List.flatMap_cons, List.append_assoc] at rest
      simp only [Forest.linksYield, List.flatMap_cons, List.append_assoc,
        List.length_append] at short
      obtain ⟨sameOp, rest'⟩ := ops link.1 link'.1 _ _ (fun _ _ => rfl) (fun _ _ => rfl) rest
        (by simp only [List.length_append]; omega)
      obtain ⟨sameOperand, rfl, rfl⟩ := ih more' link.2 link'.2 s s' start start' rest'
        (by simp only [Forest.linksYield, List.length_append]; omega)
      exact ⟨rfl, by rw [Prod.ext sameOp sameOperand], rfl⟩

include rules in
/-- A chain of operands is readable where no operator follows. -/
theorem reads_chain (operands : Reads G Q k [.nonterminal x]) (ops : Reads G (fun _ => true) k [σ])
    (opens : ∀ (op : Forest G [σ]) (s : List T), op.yield ≠ [] ∧ StartsIn O (op.yield ++ s))
    (ends : ∀ t, P t → Q t) (continues : ∀ t, O t → Q t) (differ : ∀ t, ¬ (P t ∧ O t)) :
    Reads G P k [.nonterminal n] := by
  intro f g s s' start start' same short
  obtain ⟨e, more, rfl⟩ := Forest.exists_links rules f
  obtain ⟨e', more', rfl⟩ := Forest.exists_links rules g
  simp only [Forest.yield_links, Forest.single, Forest.yield_tree, List.append_assoc] at same short
  obtain ⟨rfl, rfl, rfl⟩ :=
    reads_links operands ops opens ends continues differ more more' e e' s s' start
      start' same short
  exact ⟨rfl, rfl⟩

end Chain

end AnonCompiler.Lib
