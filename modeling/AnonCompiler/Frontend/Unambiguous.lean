import AnonCompiler.Frontend.Grammar

/-!
# A token sequence has one derivation

Every nonterminal of the frontend's grammar is readable (`reads`).  Most choices are
made by the next token.  The others are: an operand chain goes on while an operator
follows; a name is called when a parenthesis follows; an assignment and an expression
statement are told apart behind the expression that both start with; and a matched
statement never reads like an open one, because what an open one leaves over never
starts with `else`.
-/

set_option autoImplicit false

namespace AnonCompiler.Frontend

open AnonCompiler.Lib Terminal Nonterminal

/-! ## Names -/

variable {k : ℕ} {n : Nonterminal}

theorem yield_ident (f : Forest sysy [Nonterminal.ident]) : f.yield = [identTok] := by
  obtain ⟨_, children, rfl⟩ := Forest.eq_tree_of_rules rfl f
  rw [Forest.yield_tree, Forest.yield_terminal_cons, Forest.eq_nil children.tail, Forest.yield_nil]

/-- An lvalue is a name that no parenthesis follows. -/
theorem lVal_starts (f : Forest sysy [lVal]) (s : List Terminal)
    (start : StartsIn (follow lVal) s) :
    ∃ w, f.yield ++ s = identTok :: w ∧ StartsIn (fun t => t != lparen) w := by
  obtain ⟨_, children, rfl⟩ := Forest.eq_tree_of_rules rfl f
  refine ⟨children.tail.yield ++ s, ?_, ?_⟩
  · rw [Forest.yield_tree, ← Forest.yield_head_tail children, yield_ident]
    rfl
  · have all : ∀ t, lookahead.heads (follow lVal) [Nonterminal.indices] t → t != lparen := by decide
    exact (tables.startsIn children.tail s start).mono all

theorem funcCall_starts (f : Forest sysy [funcCall]) : ∃ w, f.yield = identTok :: lparen :: w := by
  obtain ⟨_, children, rfl⟩ := Forest.eq_tree_of_rules rfl f
  refine ⟨children.tail.tail.yield, ?_⟩
  rw [Forest.yield_tree, ← Forest.yield_head_tail children, yield_ident,
    Forest.yield_terminal_cons children.tail]
  rfl

theorem apart_funcCall (k : ℕ) :
    Apart sysy (follow unaryExp) (follow unaryExp) k [primaryExp] [funcCall] := by
  intro f g s s' start start' same short
  obtain ⟨rhs, rule, children, rfl⟩ := f.eq_tree
  rw [Forest.yield_tree] at same short
  by_cases name : rhs = [.nonterminal lVal]
  · subst name
    obtain ⟨w, left, noParen⟩ := lVal_starts children s start
    obtain ⟨w', right⟩ := funcCall_starts g
    rw [left, right, List.cons_append, List.cons_append, List.cons.injEq] at same
    rw [same.2, startsIn_cons] at noParen
    exact absurd noParen (by decide)
  · have heads : ∀ rhs ∈ sysy.rules primaryExp, rhs ≠ [.nonterminal lVal] →
        lookahead.DistinctHeads (follow unaryExp) (follow unaryExp) rhs
          [.nonterminal funcCall] := by
      decide
    exact tables.apart (heads rhs rule name) k children g s s' start start' same short

/-! ## Assignments and expression statements -/

/-- An lvalue as an expression. -/
def asExp (l : Forest sysy [lVal]) : Forest sysy [exp] :=
  .tree exp (by decide) <| .tree lOrExp (by decide) <| .tree lAndExp (by decide) <|
    .tree eqExp (by decide) <| .tree relExp (by decide) <| .tree addExp (by decide) <|
      .tree mulExp (by decide) <| .tree unaryExp (by decide) <| .tree primaryExp (by decide) l

theorem yield_asExp (l : Forest sysy [lVal]) : (asExp l).yield = l.yield := by
  simp only [asExp, Forest.yield_tree]

theorem apart_assignStmt (exps : Reads sysy (follow exp) k [exp]) (P Q : Terminal → Bool) :
    Apart sysy P Q k [assignStmt] [optExp, semi] := by
  intro f g s s' start start' same short
  obtain ⟨rhs, rule, value, isTree⟩ := g.head.eq_tree
  rw [← Forest.yield_head_tail g, Forest.yield_terminal_cons g.tail, isTree,
    Forest.yield_tree] at same
  have alternatives : rhs = [] ∨ rhs = [.nonterminal exp] := by
    simpa [sysy, stmtRules, commonRules] using rule
  obtain ⟨_, children, rfl⟩ := Forest.eq_tree_of_rules rfl f
  rw [Forest.yield_tree, ← Forest.yield_head_tail children,
    Forest.yield_terminal_cons children.tail] at same
  rw [Forest.yield_tree, ← Forest.yield_head_tail children,
    Forest.yield_terminal_cons children.tail] at short
  simp only [List.append_assoc, List.cons_append] at same short
  rcases alternatives with rfl | rfl
  · obtain ⟨w, starts, _⟩ := lVal_starts children.head [] (startsIn_nil _)
    rw [List.append_nil] at starts
    rw [starts, Forest.eq_nil value] at same
    simp at same
  · rw [← yield_asExp] at same short
    have tails := (exps (asExp children.head) value _ _ (by simp [follow, Terminal.level])
      (by simp [follow, Terminal.level]) same short).2
    simp at tails

/-! ## Matched and open statements -/

section Conditions

variable {α β : List (Symbol Terminal Nonterminal)} {G : Grammar Terminal Nonterminal}

/-- What stands behind `if (Exp)`. -/
def afterIf (f : Forest G (kwIf :: lparen :: exp :: rparen :: α)) : Forest G α :=
  f.tail.tail.tail.tail

theorem yield_if (f : Forest G (kwIf :: lparen :: exp :: rparen :: α)) :
    f.yield = kwIf :: lparen :: (f.tail.tail.head.yield ++ rparen :: (afterIf f).yield) := by
  rw [Forest.yield_terminal_cons f, Forest.yield_terminal_cons f.tail,
    ← Forest.yield_head_tail f.tail.tail, Forest.yield_terminal_cons f.tail.tail.tail]
  rfl

/-- Equal conditions are read away. -/
theorem strip_if {k : ℕ} (exps : Reads sysy (follow exp) k [exp])
    (f : Forest sysy (kwIf :: lparen :: exp :: rparen :: α))
    (g : Forest sysy (kwIf :: lparen :: exp :: rparen :: β)) {s s' : List Terminal}
    (same : f.yield ++ s = g.yield ++ s') (short : (f.yield ++ s).length < k + 1) :
    (afterIf f).yield ++ s = (afterIf g).yield ++ s' ∧ ((afterIf f).yield ++ s).length < k := by
  rw [yield_if] at same short
  rw [yield_if] at same
  simp only [List.cons_append, List.append_assoc, List.cons.injEq, true_and] at same
  simp only [List.cons_append, List.append_assoc, List.length_cons, List.length_append] at short
  have fewer : (f.tail.tail.head.yield ++ rparen :: ((afterIf f).yield ++ s)).length < k := by
    simp only [List.length_append, List.length_cons]
    omega
  have paren (w : List Terminal) : StartsIn (follow exp) (rparen :: w) := by
    simp [follow, Terminal.level]
  obtain ⟨_, rest⟩ := exps _ _ _ _ (paren _) (paren _) same fewer
  rw [List.cons.injEq] at rest
  refine ⟨rest.2, ?_⟩
  simp only [List.length_append] at short ⊢
  omega

end Conditions

/-- What is read as a matched statement is not read as an open one: behind the open one
no `else` follows, and behind the matched branch of the matched one an `else` does. -/
theorem apart_openStmt : (k : ℕ) → (∀ n, Reads sysy (follow n) k [.nonterminal n]) →
    Apart sysy (follow matchedStmt) (follow openStmt) (k + 1) [matchedStmt] [openStmt]
  | k, shorter => by
    have apart_shorter : Apart sysy (follow matchedStmt) (follow openStmt) k [matchedStmt]
        [openStmt] := by
      cases k with
      | zero => exact fun f g s s' _ _ _ short => absurd short (Nat.not_lt_zero _)
      | succ k => exact apart_openStmt k fun n => (shorter n).le (Nat.le_succ k)
    intro f g s s' start start' same short
    obtain ⟨rhs, rule, children, rfl⟩ := f.eq_tree
    rw [Forest.yield_tree] at same short
    by_cases isIf : rhs = ifElseForm matchedStmt matchedStmt
    swap
    · have heads : ∀ rhs ∈ sysy.rules matchedStmt,
          rhs ≠ ifElseForm matchedStmt matchedStmt →
          lookahead.DistinctHeads (follow matchedStmt) (follow openStmt) rhs
            [.nonterminal openStmt] := by
        decide
      exact tables.apart (heads rhs rule isIf) (k + 1) children g s s' start start' same short
    subst isIf
    obtain ⟨rhs', rule', children', rfl⟩ := g.eq_tree
    rw [Forest.yield_tree] at same
    have alternatives : rhs' = ifForm stmt ∨
        rhs' = ifElseForm matchedStmt openStmt := by
      simpa [sysy, stmtRules] using rule'
    rcases alternatives with rfl | rfl
    · obtain ⟨same, short⟩ := strip_if (shorter exp) children children' same short
      obtain ⟨rhs'', rule'', body, isTree⟩ := (afterIf children').eq_tree
      rw [isTree, Forest.yield_tree, ← Forest.yield_head_tail (afterIf children),
        List.append_assoc] at same
      rw [← Forest.yield_head_tail (afterIf children), List.append_assoc] at short
      have alternatives : rhs'' = [.nonterminal matchedStmt] ∨ rhs'' = [.nonterminal openStmt] := by
        simpa [sysy, stmtRules] using rule''
      rcases alternatives with rfl | rfl
      · obtain ⟨_, tails⟩ :=
          shorter matchedStmt _ body _ s' (fun _ _ => rfl) (fun _ _ => rfl) same short
        rw [← tails, Forest.yield_terminal_cons, List.cons_append, startsIn_cons] at start'
        exact absurd start' (by decide)
      · exact apart_shorter _ body _ s' (fun _ _ => rfl) start' same short
    · obtain ⟨same, short⟩ := strip_if (shorter exp) children children' same short
      rw [← Forest.yield_head_tail (afterIf children), ← Forest.yield_head_tail (afterIf children'),
        List.append_assoc, List.append_assoc] at same
      rw [← Forest.yield_head_tail (afterIf children), List.append_assoc] at short
      obtain ⟨_, tails⟩ :=
        shorter matchedStmt _ _ _ _ (fun _ _ => rfl) (fun _ _ => rfl) same short
      rw [Forest.yield_terminal_cons, Forest.yield_terminal_cons (afterIf children').tail,
        List.cons_append, List.cons_append, List.cons.injEq] at tails
      rw [Forest.yield_terminal_cons (afterIf children).tail] at short
      apply apart_shorter _ _ _ _ start start' tails.2
      simp only [List.length_append, List.length_cons] at short ⊢
      omega

/-- The two forms of an open statement are told apart behind the first branch. -/
theorem apart_elseOpen (shorter : ∀ n, Reads sysy (follow n) k [.nonterminal n]) :
    Apart sysy (follow openStmt) (follow openStmt) (k + 1) (ifForm stmt)
      (ifElseForm matchedStmt openStmt) := by
  intro f g s s' start start' same short
  obtain ⟨same, short⟩ := strip_if (shorter exp) f g same short
  obtain ⟨rhs, rule, body, isTree⟩ := (afterIf f).eq_tree
  rw [isTree, Forest.yield_tree, ← Forest.yield_head_tail (afterIf g), List.append_assoc] at same
  rw [isTree, Forest.yield_tree] at short
  have alternatives : rhs = [.nonterminal matchedStmt] ∨ rhs = [.nonterminal openStmt] := by
    simpa [sysy, stmtRules] using rule
  rcases alternatives with rfl | rfl
  · obtain ⟨_, tails⟩ := shorter matchedStmt body _ s _ (fun _ _ => rfl) (fun _ _ => rfl) same short
    rw [tails, Forest.yield_terminal_cons, List.cons_append, startsIn_cons] at start
    exact absurd start (by decide)
  · exact apart_openStmt k shorter _ body _ s (fun _ _ => rfl) start same.symm
      (by rw [← same]; omega)

/-! ## Lists with commas -/

section Lists

variable {item : Item}

/-- The forests of `(T ",")* T?`. -/
abbrev CommaForest (item : Item) :=
  Forest sysy [.nonterminal (commaItems item), .nonterminal (commaLast item)]

/-- An item, a comma and the rest of the list. -/
abbrev itemForm (item : Item) : List (Symbol Terminal Nonterminal) :=
  [item.nonterminal, commaTok, commaItems item]

theorem commaItems_nil : [] ∈ sysy.rules (commaItems item) := List.mem_cons_self

theorem commaItems_cons : itemForm item ∈ sysy.rules (commaItems item) :=
  List.mem_cons_of_mem _ List.mem_cons_self

theorem commaLast_nil : [] ∈ sysy.rules (commaLast item) := List.mem_cons_self

theorem commaLast_one : [.nonterminal item.nonterminal] ∈ sysy.rules (commaLast item) :=
  List.mem_cons_of_mem _ List.mem_cons_self

namespace CommaForest

def none : CommaForest item := .cons (.tree _ commaItems_nil .nil) (.tree _ commaLast_nil .nil)

def last (e : Forest sysy [.nonterminal item.nonterminal]) : CommaForest item :=
  .cons (.tree _ commaItems_nil .nil) (.tree _ commaLast_one e)

def more (e : Forest sysy [.nonterminal item.nonterminal]) (rest : CommaForest item) :
    CommaForest item :=
  .cons (.tree _ commaItems_cons (.cons e (.terminal commaTok rest.head))) rest.tail

theorem yield_none : (none : CommaForest item).yield = [] := rfl

theorem yield_last (e : Forest sysy [.nonterminal item.nonterminal]) :
    (last e).yield = e.yield := by
  rw [last, Forest.yield_cons, Forest.yield_tree, Forest.yield_tree]
  rfl

theorem yield_more (e : Forest sysy [.nonterminal item.nonterminal]) (rest : CommaForest item) :
    (more e rest).yield = e.yield ++ commaTok :: rest.yield := by
  rw [more, Forest.yield_cons, Forest.yield_tree, Forest.yield_cons, Forest.yield_terminal,
    List.append_assoc, List.cons_append, Forest.yield_head_tail]

theorem cases (f : CommaForest item) : f = none ∨
    (∃ e, f = last e) ∨ ∃ e rest, f = more e rest := by
  obtain ⟨rhs, rule, children, first⟩ := f.head.eq_tree
  obtain ⟨rhs', rule', children', second⟩ := f.tail.eq_tree
  have alternatives : rhs = [] ∨ rhs = itemForm item := by
    simpa [sysy, stmtRules, commonRules] using rule
  have alternatives' : rhs' = [] ∨ rhs' = [.nonterminal item.nonterminal] := by
    simpa [sysy, stmtRules, commonRules] using rule'
  have whole := Forest.cons_head_tail f
  rw [first] at whole
  rcases alternatives with rfl | rfl
  · rw [second] at whole
    rcases alternatives' with rfl | rfl
    · left
      rw [← whole, children.eq_nil, children'.eq_nil]
      rfl
    · rw [children.eq_nil] at whole
      exact .inr (.inl ⟨children', whole.symm⟩)
  · refine .inr (.inr ⟨children.head, .cons children.tail.tail f.tail, ?_⟩)
    rw [more, Forest.head_cons, Forest.tail_cons, Forest.terminal_tail, Forest.cons_head_tail]
    exact whole.symm

end CommaForest

theorem item_first : ∀ item : Item, lookahead.DistinctHeads (follow (comma item)) (fun _ => true) []
    [.nonterminal item.nonterminal] := by
  intro item
  cases item <;> decide

/-- A list goes on exactly while an item follows. -/
theorem reads_comma : {k : ℕ} →
    Reads sysy (follow item.nonterminal) k [.nonterminal item.nonterminal] →
    Reads sysy (follow (comma item)) k
      [.nonterminal (commaItems item), .nonterminal (commaLast item)]
  | 0, _ => fun f g s s' _ _ _ short => absurd short (Nat.not_lt_zero _)
  | k + 1, items => by
      have ends : ∀ t, follow (comma item) t → follow item.nonterminal t := by
        cases item <;> decide
      have comma_follows (w : List Terminal) :
          StartsIn (follow item.nonterminal) (commaTok :: w) := by
        cases item <;> simp [Item.nonterminal, follow, Terminal.level]
      have not_item (e : Forest sysy [.nonterminal item.nonterminal]) (s w : List Terminal)
          (start : StartsIn (follow (comma item)) s) (same : s = e.yield ++ w) : False :=
        tables.apart (item_first item) (s.length + 1) .nil e s w start (fun _ _ => rfl) same
          (Nat.lt_succ_self _)
      have not_comma (s w : List Terminal) (start : StartsIn (follow (comma item)) s)
          (same : s = commaTok :: w) : False := by
        rw [same, startsIn_cons] at start
        simp [follow] at start
      intro f g s s' start start' same short
      rcases CommaForest.cases f with rfl | ⟨e, rfl⟩ | ⟨e, rest, rfl⟩ <;>
        rcases CommaForest.cases g with rfl | ⟨e', rfl⟩ | ⟨e', rest', rfl⟩ <;>
        simp only [CommaForest.yield_none, CommaForest.yield_last, CommaForest.yield_more,
          List.nil_append, List.append_assoc, List.cons_append] at same short
      · exact ⟨rfl, same⟩
      · exact (not_item e' s s' start same).elim
      · exact (not_item e' s _ start same).elim
      · exact (not_item e s' s start' same.symm).elim
      · obtain ⟨rfl, rfl⟩ := items e e' s s' (start.mono ends) (start'.mono ends) same short
        exact ⟨rfl, rfl⟩
      · obtain ⟨_, tails⟩ := items e e' s _ (start.mono ends) (comma_follows _) same short
        exact (not_comma s _ start tails).elim
      · exact (not_item e s' _ start' same.symm).elim
      · obtain ⟨_, tails⟩ := items e e' _ s' (comma_follows _) (start'.mono ends) same short
        exact (not_comma s' _ start' tails.symm).elim
      · obtain ⟨rfl, tails⟩ := items e e' _ _ (comma_follows _) (comma_follows _) same short
        rw [List.cons.injEq] at tails
        simp only [List.length_append, List.length_cons] at short
        obtain ⟨rfl, rfl⟩ :=
          reads_comma (items.le (Nat.le_succ k)) rest rest' s s' start start' tails.2
          (by rw [List.length_append]; omega)
        exact ⟨rfl, rfl⟩

end Lists

/-! ## Every nonterminal -/

/-- A chain is readable where its operands are and where no operator of it follows. -/
theorem reads_chainStep {x : Nonterminal} {σ : Symbol Terminal Nonterminal}
    (rules : sysy.rules n = [[.nonterminal x], [.nonterminal n, σ, .nonterminal x]])
    (operands : Reads sysy (follow x) k [.nonterminal x]) (ops : Reads sysy (fun _ => true) k [σ])
    (solid : lookahead.nullableAll [σ] = false) (ends : ∀ t, follow n t → follow x t)
    (continues : ∀ t, lookahead.heads (fun _ => true) [σ] t → follow x t)
    (differ : ∀ t, ¬ (follow n t ∧ lookahead.heads (fun _ => true) [σ] t)) :
    Reads sysy (follow n) k [.nonterminal n] := by
  refine reads_chain rules operands ops (fun op s => ?_) ends continues differ
  refine ⟨fun empty => ?_, tables.startsIn op s fun _ _ => rfl⟩
  have vanishes : lookahead.nullableAll [σ] = true := tables.nullableAll_of_yield op empty
  rw [vanishes] at solid
  exact absurd solid (by decide)

/-- The alternatives that the next token leaves open are told apart further on. -/
theorem apart_conflict {rhs rhs' : List (Symbol Terminal Nonterminal)} (rule : rhs ∈ sysy.rules n)
    (rule' : rhs' ∈ sysy.rules n) (conflict : (rhs, rhs') ∈ conflicts)
    (shorter : ∀ m, Reads sysy (follow m) k [.nonterminal m])
    (lower : ∀ m, rank m < rank n → Reads sysy (follow m) (k + 1) [.nonterminal m]) :
    Apart sysy (follow n) (follow n) (k + 1) rhs rhs' := by
  simp only [conflicts, List.mem_cons, List.not_mem_nil, or_false, Prod.mk.injEq] at conflict
  rcases conflict with ⟨rfl, rfl⟩ | ⟨rfl, rfl⟩ | ⟨rfl, rfl⟩ | ⟨rfl, rfl⟩
  · have calls : ∀ n, [.nonterminal primaryExp] ∈ sysy.rules n →
        [.nonterminal funcCall] ∈ sysy.rules n → n = unaryExp := by
      decide
    obtain rfl := calls n rule rule'
    exact apart_funcCall (k + 1)
  · have assigns : ∀ n, [.nonterminal assignStmt] ∈ sysy.rules n →
        [.nonterminal optExp, .terminal semi] ∈ sysy.rules n → n = matchedStmt := by
      decide
    obtain rfl := assigns n rule rule'
    exact apart_assignStmt (lower exp (by decide)) _ _
  · have opens : ∀ n, [.nonterminal matchedStmt] ∈ sysy.rules n →
        [.nonterminal openStmt] ∈ sysy.rules n → n = stmt := by
      decide
    obtain rfl := opens n rule rule'
    exact fun f g s s' _ start' same short =>
      apart_openStmt k shorter f g s s' (fun _ _ => rfl) start' same short
  · have elses : ∀ n, ifForm stmt ∈ sysy.rules n →
        ifElseForm matchedStmt openStmt ∈ sysy.rules n → n = openStmt := by
      decide
    obtain rfl := elses n rule rule'
    exact apart_elseOpen shorter

/-- The tokens fix the derivation of every nonterminal. -/
theorem reads : ∀ k n, Reads sysy (follow n) k [.nonterminal n] := by
  refine reads_induction follow rank fun k n shorter lower => ?_
  have terminal (t : Terminal) : Reads sysy (fun _ => true) (k + 1) [.terminal t] :=
    Reads.terminal t reads_nil
  cases chain : isChain n with
  | true =>
    cases n <;> simp only [isChain, Bool.false_eq_true] at chain
    case lOrExp =>
      exact reads_chainStep rfl (lower lAndExp (by decide)) (terminal orOr) rfl (by decide)
        (by decide) (by decide)
    case lAndExp =>
      exact reads_chainStep rfl (lower eqExp (by decide)) (terminal andAnd) rfl (by decide)
        (by decide) (by decide)
    case eqExp =>
      exact reads_chainStep rfl (lower relExp (by decide)) (lower eqExpOnlyOp (by decide)) rfl
        (by decide) (by decide) (by decide)
    case relExp =>
      exact reads_chainStep rfl (lower addExp (by decide)) (lower relExpOnlyOp (by decide)) rfl
        (by decide) (by decide) (by decide)
    case addExp =>
      exact reads_chainStep rfl (lower mulExp (by decide)) (lower addExpOnlyOp (by decide)) rfl
        (by decide) (by decide) (by decide)
    case mulExp =>
      exact reads_chainStep rfl (lower unaryExp (by decide)) (lower mulExpOnlyOp (by decide)) rfl
        (by decide) (by decide) (by decide)
  | false =>
    cases list : isComma n with
    | true =>
      cases n <;> simp only [isComma, Bool.false_eq_true] at list
      case comma item =>
        refine reads_node (fun rhs rule => ?_) (fun rhs rule rhs' rule' differ => ?_)
        · obtain rfl := List.mem_singleton.mp rule
          exact reads_comma (lower item.nonterminal (by cases item <;> decide))
        · exact absurd
            ((List.mem_singleton.mp rule).trans (List.mem_singleton.mp rule').symm) differ
    | false =>
      refine tables.reads_node (by simp [tables, chain, list]) shorter lower ?_
      exact fun rhs rule rhs' rule' conflict => apart_conflict rule rule' conflict shorter lower

/-- No token sequence has two derivations. -/
theorem unambiguous (f g : Forest sysy [.nonterminal n]) (same : f.yield = g.yield) : f = g :=
  (reads (f.yield ++ []).length.succ n f g [] [] (startsIn_nil _) (startsIn_nil _)
    (congrArg (· ++ []) same) (Nat.lt_succ_self _)).1

end AnonCompiler.Frontend
