import AnonCompiler.Frontend.Unambiguous

/-!
# Which statements the frontend accepts

A statement ends open when its last part is an `if` without `else`.  In a derivation
where no `else` stands behind a statement that ends open, every `else` belongs to the
nearest `if` that has none yet.  The frontend's grammar derives exactly the reference
statements that have such a derivation in which, moreover, no body of a `while` ends
open: `MatchedStmt` has a production for `while` and `OpenStmt` has none.
-/

set_option autoImplicit false

namespace AnonCompiler.Frontend

open AnonCompiler.Lib Terminal Nonterminal

section Attributes

variable {G : Grammar Terminal Nonterminal}

/-- The last part is an `if` without `else`. -/
def endsOpen : {α : List (Symbol Terminal Nonterminal)} → Forest G α → Bool
  | _, .nil => false
  | _, .terminal _ rest => endsOpen rest
  | _, @Forest.node _ _ _ _ rhs _ children α rest =>
    if α.isEmpty then rhs == ifForm stmt || endsOpen children else endsOpen rest

/-- No `else` stands behind a statement that ends open. -/
def nearest : {α : List (Symbol Terminal Nonterminal)} → Forest G α → Bool
  | _, .nil => true
  | _, .terminal _ rest => nearest rest
  | _, @Forest.node _ _ _ _ rhs _ children α rest =>
    nearest children && nearest rest &&
      !(α.head? == some (.terminal kwElse) && (rhs == ifForm stmt || endsOpen children))

/-- No body of a `while` ends open. -/
def noOpenBody : {α : List (Symbol Terminal Nonterminal)} → Forest G α → Bool
  | _, .nil => true
  | _, .terminal _ rest => noOpenBody rest
  | _, .node _ rhs _ children rest =>
    noOpenBody children && noOpenBody rest &&
      !(rhs.head? == some (.terminal kwWhile) && endsOpen children)

variable {n : Nonterminal} {rhs α : List (Symbol Terminal Nonterminal)}
    {s : Symbol Terminal Nonterminal}

section

variable (rule : rhs ∈ G.rules n) (children : Forest G rhs)
include rule children

@[simp] theorem endsOpen_tree :
    endsOpen (.tree n rule children) = (rhs == ifForm stmt || endsOpen children) := rfl

@[simp] theorem nearest_tree : nearest (.tree n rule children) = nearest children := by
  simp [Forest.tree, nearest]

@[simp] theorem noOpenBody_tree :
    noOpenBody (.tree n rule children) =
      (noOpenBody children && !(rhs.head? == some (.terminal kwWhile) && endsOpen children)) := by
  simp [Forest.tree, noOpenBody]

end

section

variable (tree : Forest G [s]) (rest : Forest G α)
include tree rest

theorem endsOpen_cons :
    endsOpen (.cons tree rest) = if α.isEmpty then endsOpen tree else endsOpen rest := by
  cases tree with
  | terminal t last =>
    cases last
    cases rest <;> rfl
  | node n rhs rule children last =>
    cases last
    rfl

theorem nearest_cons :
    nearest (.cons tree rest) =
      (nearest tree && nearest rest && !(α.head? == some (.terminal kwElse) && endsOpen tree)) := by
  cases tree with
  | terminal _ last | node _ _ _ _ last =>
    cases last
    simp [Forest.cons, nearest, endsOpen]

theorem noOpenBody_cons : noOpenBody (.cons tree rest) = (noOpenBody tree && noOpenBody rest) := by
  cases tree with
  | terminal t last =>
    cases last
    simp [Forest.cons, noOpenBody]
  | node n rhs rule children last =>
    cases last
    simp only [Forest.cons, noOpenBody]
    cases noOpenBody children <;> cases noOpenBody rest <;> simp

end

/-! ## Forms that never end open -/

/-- The form ends in a token or in a nonterminal of the set. -/
def endsClosed (closed : Nonterminal → Bool) (α : List (Symbol Terminal Nonterminal)) : Bool :=
  match α.getLast? with
  | some (.nonterminal n) => closed n
  | _ => true

/-- Every `else` stands behind a nonterminal of the set. -/
def elseAfter (closed : Nonterminal → Bool) : List (Symbol Terminal Nonterminal) → Bool
  | .nonterminal n :: .terminal t :: rest =>
    (t != kwElse || closed n) && elseAfter closed (.terminal t :: rest)
  | _ :: rest => elseAfter closed rest
  | [] => true

/-- What is derived from a nonterminal of the set never ends open. -/
theorem endsOpen_of_closed {closed : Nonterminal → Bool}
    (rules : ∀ n, closed n → ∀ rhs ∈ G.rules n, endsClosed closed rhs ∧ rhs ≠ ifForm stmt)
    {α : List (Symbol Terminal Nonterminal)} (f : Forest G α) (ends : endsClosed closed α) :
    endsOpen f = false := by
  induction f with
  | nil => rfl
  | @terminal t α rest ih =>
    apply ih
    cases α with
    | nil => rfl
    | cons s α => exact ends
  | @node n rhs rule children α rest ihChildren ihRest =>
    cases α with
    | nil =>
      obtain ⟨last, notIf⟩ := rules n ends rhs rule
      simp only [endsOpen, List.isEmpty_nil, if_true, Bool.or_eq_false_iff, beq_eq_false_iff_ne]
      exact ⟨notIf, ihChildren last⟩
    | cons s α => exact ihRest ends

end Attributes

/-- The nonterminals whose statements never end open. -/
def matched : Nonterminal → Bool
  | .assignStmt | .block | .returnStmt | .breakStmt | .continueStmt | .whileStmt | .matchedStmt =>
    true
  | _ => false

variable {closed : Nonterminal → Bool} {n : Nonterminal}
  {α rhs : List (Symbol Terminal Nonterminal)}

theorem matched_rules : ∀ n, matched n → ∀ rhs ∈ sysy.rules n,
    endsClosed matched rhs ∧ rhs ≠ ifForm stmt := by
  decide

theorem elseAfter_rules : ∀ n, ∀ rhs ∈ sysy.rules n, elseAfter matched rhs := by
  decide

theorem elseAfter_cons (placed : elseAfter closed (.nonterminal n :: α)) :
    elseAfter closed α ∧ (α.head? = some (.terminal kwElse) → closed n) := by
  rcases α with _ | ⟨t | m, α⟩
  · simp [elseAfter]
  · simp only [elseAfter, Bool.and_eq_true, Bool.or_eq_true, bne_iff_ne] at placed
    refine ⟨placed.2, fun isElse => ?_⟩
    simp only [List.head?_cons, Option.some.injEq, Symbol.terminal.injEq] at isElse
    exact placed.1.resolve_left (not_not_intro isElse)
  · exact ⟨placed, by simp⟩

theorem elseAfter_terminal {t : Terminal} (placed : elseAfter closed (.terminal t :: α)) :
    elseAfter closed α := by
  cases α <;> exact placed

/-- In the frontend's grammar every `else` belongs to the nearest `if`. -/
theorem nearest_sysy (f : Forest sysy α) (placed : elseAfter matched α) : nearest f := by
  induction f with
  | nil => rfl
  | terminal t rest ih => exact ih (elseAfter_terminal placed)
  | @node n rhs rule children α rest ihChildren ihRest =>
    obtain ⟨tail, closes⟩ := elseAfter_cons placed
    simp only [nearest, ihChildren (elseAfter_rules n rhs rule), ihRest tail, Bool.true_and,
      Bool.not_eq_true', Bool.and_eq_false_imp, beq_iff_eq]
    intro isElse
    exact endsOpen_of_closed matched_rules (.tree n rule children) (closes isElse)

/-! ## Forgetting the difference between matched and open -/

def erase : Nonterminal → Nonterminal
  | .matchedStmt | .openStmt | .whileStmt => stmt
  | n => n

def eraseSymbol : Symbol Terminal Nonterminal → Symbol Terminal Nonterminal
  | .terminal t => .terminal t
  | .nonterminal n => .nonterminal (erase n)

theorem erase_rules : ∀ n, ∀ rhs ∈ sysy.rules n, rhs.map eraseSymbol ∈ reference.rules (erase n) ∨
    erase n = stmt ∧ rhs.map eraseSymbol = [.nonterminal stmt] := by
  decide

theorem erase_matched :
    ∀ n, matched n → ∀ rhs ∈ sysy.rules n, rhs.map eraseSymbol ≠ ifForm stmt := by
  decide

theorem while_closed : ∀ n, ∀ rhs ∈ sysy.rules n,
    (rhs.map eraseSymbol).head? = some (.terminal kwWhile) → endsClosed matched rhs := by
  decide

/-- A tree of the reference grammar from the children of a tree. -/
theorem exists_erased_tree (rule : rhs ∈ sysy.rules n) (r : Forest reference (rhs.map eraseSymbol))
    (near : nearest r) (bodies : noOpenBody r)
    (closed : endsClosed matched rhs → endsOpen r = false) :
    ∃ tree : Forest reference [.nonterminal (erase n)], tree.yield = r.yield ∧ nearest tree ∧
      noOpenBody tree ∧ (matched n → endsOpen tree = false) := by
  rcases erase_rules n rhs rule with rule' | ⟨isStmt, unit⟩
  · refine ⟨.tree (erase n) rule' r, r.yield_tree .., ?_, ?_, fun isMatched => ?_⟩
    · rwa [nearest_tree]
    · rw [noOpenBody_tree, bodies, Bool.true_and, Bool.not_eq_true', Bool.and_eq_false_imp,
        beq_iff_eq]
      exact fun isWhile => closed (while_closed n rhs rule isWhile)
    · rw [endsOpen_tree, closed (matched_rules n isMatched rhs rule).1, Bool.or_false,
        beq_eq_false_iff_ne]
      exact erase_matched n isMatched rhs rule
  · rw [isStmt]
    revert r
    rw [unit]
    exact fun r near bodies closed =>
      ⟨r, rfl, near, bodies, fun isMatched => closed (matched_rules n isMatched rhs rule).1⟩

/-- What the frontend's grammar derives is derived in the reference grammar, with every `else` at
the nearest `if` and closed bodies of `while`. -/
theorem exists_reference (f : Forest sysy α) (placed : elseAfter matched α) :
    ∃ r : Forest reference (α.map eraseSymbol), r.yield = f.yield ∧
      nearest r ∧ noOpenBody r ∧ (endsClosed matched α → endsOpen r = false) := by
  induction f with
  | nil => exact ⟨.nil, rfl, rfl, rfl, fun _ => rfl⟩
  | @terminal t α rest ih =>
    obtain ⟨r, yields, near, bodies, closed⟩ := ih (elseAfter_terminal placed)
    refine ⟨.terminal t r, congrArg (t :: ·) yields, near, bodies, fun ends => closed ?_⟩
    cases α with
    | nil => rfl
    | cons s α => exact ends
  | @node n rhs rule children α rest ihChildren ihRest =>
    obtain ⟨tail, closes⟩ := elseAfter_cons placed
    obtain ⟨c, yieldsC, nearC, bodiesC, closedC⟩ := ihChildren (elseAfter_rules n rhs rule)
    obtain ⟨r, yields, near, bodies, closed⟩ := ihRest tail
    obtain ⟨tree, yieldsT, nearT, bodiesT, closedT⟩ :=
      exists_erased_tree rule c nearC bodiesC closedC
    show ∃ r : Forest reference (.nonterminal (erase n) :: α.map eraseSymbol),
      r.yield = children.yield ++ rest.yield ∧ nearest r ∧ noOpenBody r ∧
        (endsClosed matched (.nonterminal n :: α) → endsOpen r = false)
    refine ⟨.cons tree r, ?_, ?_, ?_, fun ends => ?_⟩
    · rw [Forest.yield_cons, yieldsT, yieldsC, yields]
    · rw [nearest_cons, nearT, near, Bool.true_and, Bool.true_and, Bool.not_eq_true',
        Bool.and_eq_false_imp, beq_iff_eq]
      intro isElse
      apply closedT
      apply closes
      rcases α with _ | ⟨t | m, α⟩
      · simp at isElse
      · exact isElse
      · simp [eraseSymbol] at isElse
    · rw [noOpenBody_cons, bodiesT, bodies, Bool.and_self]
    · rw [endsOpen_cons]
      cases α with
      | nil => exact closedT ends
      | cons s α => exact closed ends

/-! ## Telling matched from open -/

def classify (opens : Bool) : Nonterminal := if opens then openStmt else matchedStmt

theorem classify_stmt : ∀ opens, [.nonterminal (classify opens)] ∈ sysy.rules stmt := by decide

theorem classify_ifElse : ∀ opens,
    ifElseForm matchedStmt (classify opens) ∈ sysy.rules (classify opens) := by decide

/-- The form with each statement as it is, or as the frontend's grammar classifies it. -/
def Refines : {α : List (Symbol Terminal Nonterminal)} → Forest reference α →
    List (Symbol Terminal Nonterminal) → Prop
  | _, .nil, β => β = []
  | _, .terminal t rest, β => ∃ γ, β = .terminal t :: γ ∧ Refines rest γ
  | _, .node n rhs _ children rest, β => ∃ m γ, β = .nonterminal m :: γ ∧ Refines rest γ ∧
      (m = n ∨ n = stmt ∧ m = classify (rhs == ifForm stmt || endsOpen children))

theorem refines_refl (r : Forest reference α) : Refines r α := by
  induction r with
  | nil => rfl
  | terminal t rest ih => exact ⟨_, rfl, ih⟩
  | node n rhs rule children rest _ ih => exact ⟨n, _, rfl, ih, .inl rfl⟩

/-- `while (Exp)` with its body. -/
abbrev whileForm (body : Nonterminal) : List (Symbol Terminal Nonterminal) :=
  [kwWhile, lparen, exp, rparen, body]

theorem reference_rules : ∀ n, n ≠ stmt → ∀ rhs ∈ reference.rules n, rhs ∈ sysy.rules n := by
  decide

theorem reference_matched : ∀ n, matched n → ∀ rhs ∈ reference.rules n,
    endsClosed matched rhs ∧ rhs ≠ ifForm stmt := by
  decide

theorem reference_stmt : ∀ rhs ∈ reference.rules stmt,
    rhs ∈ sysy.rules matchedStmt ∧ endsClosed matched rhs ∧ rhs ≠ ifForm stmt ∨
      rhs = ifForm stmt ∨ rhs = ifElseForm stmt stmt ∨ rhs = whileForm stmt := by
  decide

/-- The branches of an `if` with `else`: the first does not end open, the second decides. -/
theorem refines_ifElse (r : Forest reference (ifElseForm stmt stmt)) (near : nearest r) :
    Refines r (ifElseForm matchedStmt (classify (endsOpen r))) := by
  match r, near with
  | .terminal _ (.terminal _ (.node _ _ _ _ (.terminal _ (.node _ thenRhs _ thenChildren
      (.terminal _ (.node _ elseRhs _ elseChildren .nil)))))), near =>
    simp only [nearest, List.head?_cons, beq_self_eq_true, Bool.true_and, Bool.and_eq_true,
      Bool.not_eq_true'] at near
    have first := near.1.2.2
    refine ⟨_, rfl, _, rfl, exp, _, rfl, ⟨_, rfl, matchedStmt, _, rfl, ⟨_, rfl, _, [], rfl, rfl,
      .inr ⟨rfl, rfl⟩⟩, .inr ⟨rfl, ?_⟩⟩, .inl rfl⟩
    rw [first]
    rfl

theorem refines_while (r : Forest reference (whileForm stmt)) (closed : endsOpen r = false) :
    Refines r (whileForm matchedStmt) := by
  match r, closed with
  | .terminal _ (.terminal _ (.node _ _ _ _ (.terminal _ (.node _ rhs _ children .nil)))), closed =>
    refine ⟨_, rfl, _, rfl, exp, _, rfl,
      ⟨_, rfl, matchedStmt, [], rfl, rfl, .inr ⟨rfl, ?_⟩⟩, .inl rfl⟩
    have opens : (rhs == ifForm stmt || endsOpen children) = false := closed
    rw [opens]
    rfl

/-- A statement of the reference grammar is matched or open in the frontend's. -/
theorem exists_classified (rule : rhs ∈ reference.rules stmt) (r : Forest reference rhs)
    (near : nearest r) (bodies : rhs.head? = some (.terminal kwWhile) → endsOpen r = false)
    (ih : ∀ β, Refines r β → ∃ f : Forest sysy β, f.yield = r.yield) :
    ∃ tree : Forest sysy [.nonterminal (classify (rhs == ifForm stmt || endsOpen r))],
      tree.yield = r.yield := by
  rcases reference_stmt rhs rule with ⟨rule', closed, notIf⟩ | rfl | rfl | rfl
  · obtain ⟨f, yields⟩ := ih rhs (refines_refl r)
    rw [endsOpen_of_closed reference_matched r closed, Bool.or_false,
      show (rhs == ifForm stmt) = false from beq_eq_false_iff_ne.mpr notIf]
    exact ⟨.tree matchedStmt rule' f, (f.yield_tree ..).trans yields⟩
  · obtain ⟨f, yields⟩ := ih _ (refines_refl r)
    exact ⟨.tree openStmt (by decide) f, (f.yield_tree ..).trans yields⟩
  · obtain ⟨f, yields⟩ := ih _ (refines_ifElse r near)
    have notIf : (ifElseForm stmt stmt == ifForm stmt) = false := by decide
    rw [notIf, Bool.false_or]
    exact ⟨.tree _ (classify_ifElse (endsOpen r)) f, (f.yield_tree ..).trans yields⟩
  · have closed := bodies rfl
    obtain ⟨f, yields⟩ := ih _ (refines_while r closed)
    have notIf : (whileForm stmt == ifForm stmt) = false := by decide
    rw [notIf, closed, Bool.false_or]
    exact ⟨.tree matchedStmt (by decide) (.tree whileStmt (by decide) f),
      (Forest.yield_tree ..).trans ((Forest.yield_tree ..).trans yields)⟩

/-- A derivation of the reference grammar with every `else` at the nearest `if` and closed bodies
of `while` is one of the frontend's grammar. -/
theorem exists_sysy (r : Forest reference α) (near : nearest r) (bodies : noOpenBody r)
    (β : List (Symbol Terminal Nonterminal)) (refines : Refines r β) :
    ∃ f : Forest sysy β, f.yield = r.yield := by
  induction r generalizing β with
  | nil =>
    obtain rfl := refines
    exact ⟨.nil, rfl⟩
  | terminal t rest ih =>
    obtain ⟨γ, rfl, refines⟩ := refines
    obtain ⟨f, yields⟩ := ih near bodies γ refines
    exact ⟨.terminal t f, congrArg (t :: ·) yields⟩
  | @node n rhs rule children α rest ihChildren ihRest =>
    simp only [nearest, Bool.and_eq_true] at near
    simp only [noOpenBody, Bool.and_eq_true, Bool.not_eq_true', Bool.and_eq_false_imp,
      beq_iff_eq] at bodies
    obtain ⟨m, γ, rfl, refines, kind⟩ := refines
    obtain ⟨f, yields⟩ := ihRest near.1.2 bodies.1.2 γ refines
    have fromChildren := ihChildren near.1.1 bodies.1.1
    suffices ∃ tree : Forest sysy [.nonterminal m], tree.yield = children.yield by
      obtain ⟨tree, yieldsT⟩ := this
      refine ⟨.cons tree f, ?_⟩
      rw [Forest.yield_cons, yieldsT, yields, Forest.yield_node]
    by_cases isStmt : n = stmt
    · subst isStmt
      obtain ⟨tree, yieldsT⟩ := exists_classified rule children near.1.1 bodies.2 fromChildren
      rcases kind with rfl | ⟨_, rfl⟩
      · exact ⟨.tree _ (classify_stmt _) tree, (tree.yield_tree ..).trans yieldsT⟩
      · exact ⟨tree, yieldsT⟩
    · obtain rfl : m = n := kind.resolve_right fun other => isStmt other.1
      obtain ⟨g, yieldsG⟩ := fromChildren rhs (refines_refl children)
      exact ⟨.tree m (reference_rules m isStmt rhs rule) g, (g.yield_tree ..).trans yieldsG⟩

/-! ## The language of statements -/

/-- The token sequence is derived if it is a reference statement, and has then one derivation, in
which every `else` belongs to the nearest `if` that has none yet. -/
def ReadAsSpecified (w : List Terminal) : Prop :=
  (w ∈ (reference.toCFG stmt).language → w ∈ (sysy.toCFG stmt).language) ∧
    (w ∈ (sysy.toCFG stmt).language →
      (∃! f : Forest sysy [stmt], f.yield = w) ∧ ∀ f : Forest sysy [stmt], f.yield = w → nearest f)

/-- The statement has a derivation in the reference grammar where every `else` belongs to the
nearest `if` and no body of a `while` ends in an `if` without `else`. -/
def HasClosedBodies (w : List Terminal) : Prop :=
  ∃ r : Forest reference [stmt], r.yield = w ∧ nearest r ∧ noOpenBody r

theorem mem_sysy_iff {w : List Terminal} : w ∈ (sysy.toCFG stmt).language ↔ HasClosedBodies w := by
  refine derives_iff_forest.trans ?_
  constructor
  · rintro ⟨f, yields⟩
    obtain ⟨r, same, near, bodies, _⟩ := exists_reference f rfl
    exact ⟨r, same.trans yields, near, bodies⟩
  · rintro ⟨r, yields, near, bodies⟩
    obtain ⟨f, same⟩ := exists_sysy r near bodies _ (refines_refl r)
    exact ⟨f, same.trans yields⟩

/-- A reference statement is read as specified exactly if no body of a `while` ends in an `if`
without `else`. -/
theorem readAsSpecified_iff (w : List Terminal) :
    ReadAsSpecified w ↔ (w ∈ (reference.toCFG stmt).language → HasClosedBodies w) := by
  constructor
  · intro spec derived
    exact mem_sysy_iff.mp (spec.1 derived)
  · intro bodies
    refine ⟨fun derived => mem_sysy_iff.mpr (bodies derived), fun derived => ⟨?_, ?_⟩⟩
    · obtain ⟨f, yields⟩ := derives_iff_forest.mp derived
      exact ⟨f, yields, fun g same => unambiguous g f (same.trans yields.symm)⟩
    · exact fun f _ => nearest_sysy f rfl

/-- `while` with an open body, which no production has. -/
def whileOpen (e : Forest sysy [exp]) (body : Forest sysy [openStmt]) :
    Forest sysy (whileForm openStmt) :=
  .terminal kwWhile (.terminal lparen (.cons e (.terminal rparen body)))

theorem yield_while {body : Nonterminal} (f : Forest sysy (whileForm body)) :
    f.yield = kwWhile :: lparen :: (f.tail.tail.head.yield ++
      rparen :: f.tail.tail.tail.tail.yield) := by
  rw [Forest.yield_terminal_cons f, Forest.yield_terminal_cons f.tail,
    ← Forest.yield_head_tail f.tail.tail, Forest.yield_terminal_cons f.tail.tail.tail]

theorem whileOpen_not_read (e : Forest sysy [exp]) (body : Forest sysy [openStmt]) :
    (whileOpen e body).yield ∉ (sysy.toCFG stmt).language := by
  intro derived
  obtain ⟨f, yields⟩ := derives_iff_forest.mp derived
  have anyTail : StartsIn (fun _ => true) ([] : List Terminal) := startsIn_nil _
  obtain ⟨rhs, rule, children, rfl⟩ := f.eq_tree
  rw [Forest.yield_tree] at yields
  have alternatives : rhs = [.nonterminal matchedStmt] ∨ rhs = [.nonterminal openStmt] := by
    simpa [sysy, stmtRules] using rule
  rcases alternatives with rfl | rfl
  · obtain ⟨rhs, rule, statement, rfl⟩ := children.eq_tree
    rw [Forest.yield_tree] at yields
    by_cases isWhile : rhs = [.nonterminal whileStmt]
    · subst isWhile
      obtain ⟨_, loop, rfl⟩ := Forest.eq_tree_of_rules rfl statement
      rw [Forest.yield_tree, yield_while, yield_while (whileOpen e body)] at yields
      simp only [List.cons.injEq, true_and] at yields
      have paren (w : List Terminal) : StartsIn (follow exp) (rparen :: w) := by
        simp [follow, Terminal.level]
      obtain ⟨_, bodies⟩ :=
        reads _ exp _ _ _ _ (paren _) (paren _) yields (Nat.lt_succ_self _)
      rw [List.cons.injEq] at bodies
      exact apart_openStmt _ (reads _) _ _ [] [] anyTail (startsIn_nil _)
        (congrArg (· ++ []) bodies.2) (Nat.lt_succ_self _)
    · have heads : ∀ rhs ∈ sysy.rules matchedStmt, rhs ≠ [.nonterminal whileStmt] →
          lookahead.DistinctHeads (fun _ => true) (fun _ => true) rhs (whileForm openStmt) := by
        decide
      exact tables.apart (heads rhs rule isWhile) _ statement (whileOpen e body) [] []
        anyTail anyTail
        (congrArg (· ++ []) yields) (Nat.lt_succ_self _)
  · have heads : lookahead.DistinctHeads (fun _ => true) (fun _ => true) [.nonterminal openStmt]
        (whileForm openStmt) := by
      decide
    exact tables.apart heads _ children (whileOpen e body) [] [] anyTail anyTail
      (congrArg (· ++ []) yields) (Nat.lt_succ_self _)

/-- An identifier as an expression. -/
def nameExp : Forest sysy [exp] :=
  asExp (.tree lVal (by decide) (.cons (.tree ident (by decide) (.terminal identTok .nil))
    (.tree indices (by decide) .nil)))

/-- `if (a) ;` -/
def emptyIf : Forest sysy [openStmt] :=
  .tree openStmt (by decide) (.terminal kwIf (.terminal lparen (.cons nameExp (.terminal rparen
    (.tree stmt (by decide) (.tree matchedStmt (by decide)
      (.cons (.tree optExp (by decide) .nil) (.terminal semi .nil))))))))

/-- `while (a) if (a) ;` is a statement of the reference grammar that the frontend rejects: the
body of a `while` has to be a matched statement, and an `if` without `else` is none. -/
theorem whileIf_not_read :
    ¬ ReadAsSpecified [kwWhile, lparen, identTok, rparen, kwIf, lparen, identTok,
      rparen, semi] := by
  intro spec
  have tokens : (whileOpen nameExp emptyIf).yield =
      [kwWhile, lparen, identTok, rparen, kwIf, lparen, identTok, rparen, semi] := rfl
  rw [← tokens] at spec
  apply whileOpen_not_read nameExp emptyIf
  apply spec.1
  obtain ⟨r, yields, _⟩ := exists_reference (whileOpen nameExp emptyIf) rfl
  have rule : whileForm stmt ∈ reference.rules stmt := by decide
  exact derives_iff_forest.mpr ⟨.tree stmt rule r, (r.yield_tree ..).trans yields⟩

end AnonCompiler.Frontend
