import AnonCompiler.Opt.GvnPre

/-!
# What a value number says

Two values get one number exactly when they are the same expression (`Term.Same`): the
same constant, the same value that is no numbered operation, or operations of one
operator on the same expressions.  An operation that can be turned is also the same as
the turned one.  The invariant of the table is `ValueNumbers.Ok`; every call keeps it
and keeps the numbers given before (`ValueNumbers.Extends`).
-/

set_option autoImplicit false

namespace AnonCompiler.Opt.GvnPre

open Ir

/-! ## Expressions -/

/-- A value as the operations it is made of, down to constants and to values that are
not numbered by their operands. -/
inductive Term where
  | integer (ty : Ty) (value : BitVec 32)
  | value (ty : Ty) (inst : Inst)
  | binary (op : BinaryOp) (lhs rhs : Term)

/-- The operator for the operands in the other order. -/
def turned (op : BinaryOp) : Option BinaryOp :=
  if isCommutative op then some op else Gvn.swapCompareArgs op

/-- An operation with the same expression twice is not turned. -/
def Term.Same : Term → Term → Prop
  | .binary op lhs rhs, .binary op' lhs' rhs' =>
    (op = op' ∧ lhs.Same lhs' ∧ rhs.Same rhs') ∨
      (¬ lhs.Same rhs ∧ turned op = some op' ∧ lhs.Same rhs' ∧ rhs.Same lhs')
  | .integer ty v, .integer ty' v' => ty = ty' ∧ v = v'
  | .value ty inst, .value ty' inst' => ty = ty' ∧ inst = inst'
  | _, _ => False

section Arena

variable (arena : Arena)

/-- An operation that is numbered by its operands. -/
structure Candidate (op : BinaryOp) (lhs rhs : Inst) : Prop where
  op : isCandidate op = true
  lhs : arena.typeOf lhs = some .int32
  rhs : arena.typeOf rhs = some .int32

/-- A value that is numbered by itself. -/
structure Leaf (data : InstData) : Prop where
  notInteger : ∀ v, data.kind ≠ .integer v
  notCandidate : ∀ op lhs rhs, data.kind = .binary op lhs rhs → ¬ Candidate arena op lhs rhs

inductive Unfolds : Inst → Term → Prop
  | integer {value : Inst} {ty : Ty} {v : BitVec 32}
      (isData : arena value = some ⟨ty, .integer v⟩) : Unfolds value (.integer ty v)
  | leaf {value : Inst} {data : InstData} (isData : arena value = some data)
      (isLeaf : Leaf arena data) : Unfolds value (.value data.ty value)
  | binary {value : Inst} {ty : Ty} {op : BinaryOp} {lhs rhs : Inst} {l r : Term}
      (isData : arena value = some ⟨ty, .binary op lhs rhs⟩)
      (candidate : Candidate arena op lhs rhs) (left : Unfolds lhs l) (right : Unfolds rhs r) :
      Unfolds value (.binary op l r)

/-- The two operations are the same expression. -/
def SameExpr (op : BinaryOp) (lhs rhs : Inst) (op' : BinaryOp) (lhs' rhs' : Inst) : Prop :=
  Candidate arena op lhs rhs ∧ Candidate arena op' lhs' rhs' ∧ ∃ l r l' r',
    Unfolds arena lhs l ∧ Unfolds arena rhs r ∧ Unfolds arena lhs' l' ∧ Unfolds arena rhs' r' ∧
      (Term.binary op l r).Same (.binary op' l' r')

end Arena

variable {arena : Arena}

variable {op op' : BinaryOp} {ty : Ty} {l r : ValueNumber}

/-- Turning twice gives the operator back. -/
theorem turned_turned (turns : turned op = some op') : turned op' = some op := by
  cases op <;> cases turns <;> rfl

theorem ordered_of_lt (turn : r < l) :
    Expr.ordered ty op l r = match turned op with
      | some op' => ⟨ty, .int32, op', r, l⟩
      | none => ⟨ty, .int32, op, l, r⟩ := by
  rw [Expr.ordered, if_pos turn, turned]
  split
  · rfl
  · rfl

theorem ordered_of_le (inOrder : l ≤ r) : Expr.ordered ty op l r = ⟨ty, .int32, op, l, r⟩ := by
  rw [Expr.ordered, if_neg (Nat.not_lt.mpr inOrder)]

theorem ordered_resultTy : (Expr.ordered ty op l r).resultTy = .int32 := by
  unfold Expr.ordered
  split
  · split
    · rfl
    · split <;> rfl
  · rfl

/-- The numbers in order make the key of an operation and of the turned one the
same. -/
theorem ordered_eq_ordered_iff {l' r' : ValueNumber} :
    Expr.ordered ty op l r = Expr.ordered ty op' l' r' ↔
      (op = op' ∧ l = l' ∧ r = r') ∨ (l ≠ r ∧ turned op = some op' ∧ l = r' ∧ r = l') := by
  have involutive : ∀ {a b c : BinaryOp}, turned a = some c → turned b = some c → a = b :=
    fun first second => Option.some.inj ((turned_turned first).symm.trans (turned_turned second))
  have back : ∀ {a b : BinaryOp}, turned a = some b → turned b = some a := turned_turned
  rcases Nat.lt_or_ge r l with turn | inOrder
  · rw [ordered_of_lt turn]
    rcases Nat.lt_or_ge r' l' with turn' | inOrder'
    · rw [ordered_of_lt turn']
      cases turns : turned op with
      | none | some => cases turns' : turned op' <;> grind
    · rw [ordered_of_le inOrder']
      cases turns : turned op <;> grind
  · rw [ordered_of_le inOrder]
    rcases Nat.lt_or_ge r' l' with turn' | inOrder'
    · rw [ordered_of_lt turn']
      cases turns' : turned op' with
      | none => grind
      | some up =>
        grind
    · rw [ordered_of_le inOrder']
      grind

/-! ## The table -/

namespace ValueNumbers

variable {N N' : ValueNumbers} {value : Inst} {n : ValueNumber} {key : ValueKey}

/-- The key of a value whose operands have numbers. -/
inductive KeyOf (arena : Arena) (N : ValueNumbers) (value : Inst) : ValueKey → Prop
  | integer {ty : Ty} {v : BitVec 32} (isData : arena value = some ⟨ty, .integer v⟩) :
      KeyOf arena N value (.integer ty v)
  | leaf {data : InstData} (isData : arena value = some data) (isLeaf : Leaf arena data) :
      KeyOf arena N value (.identity data.ty value)
  | binary {ty : Ty} {op : BinaryOp} {lhs rhs : Inst} {l r : ValueNumber}
      (isData : arena value = some ⟨ty, .binary op lhs rhs⟩)
      (candidate : Candidate arena op lhs rhs) (left : N.values lhs = some l)
      (right : N.values rhs = some r) : KeyOf arena N value (.expr (.ordered .int32 op l r))

/-- Keys have numbers of their own, and the number of a value is that of its key. -/
structure Ok (arena : Arena) (N : ValueNumbers) : Prop where
  bounded : ∀ {key n}, N.keys.lookup key = some n → n < N.next
  injective : ∀ {key key' n}, N.keys.lookup key = some n → N.keys.lookup key' = some n → key = key'
  keyed : ∀ {value n}, N.values value = some n → ∃ key, KeyOf arena N value key ∧
    N.keys.lookup key = some n
  unfolds : ∀ {value n}, N.values value = some n → ∃ t, Unfolds arena value t

/-- Keys and values keep their numbers. -/
structure Extends (N N' : ValueNumbers) : Prop where
  keys : ∀ {key n}, N.keys.lookup key = some n → N'.keys.lookup key = some n
  values : ∀ {value n}, N.values value = some n → N'.values value = some n

variable {key' : ValueKey} {other : Inst} {m : ValueNumber}

theorem Extends.refl (N : ValueNumbers) : N.Extends N := ⟨id, id⟩

theorem Extends.trans {N₁ N₂ N₃ : ValueNumbers} (first : N₁.Extends N₂) (second : N₂.Extends N₃) :
    N₁.Extends N₃ :=
  ⟨fun found => second.keys (first.keys found), fun found => second.values (first.values found)⟩

theorem Ok.init : ValueNumbers.init.Ok arena where
  bounded := fun found => by cases found
  injective := fun found => by cases found
  keyed := fun found => by cases found
  unfolds := fun found => by cases found

theorem KeyOf.mono (extends' : N.Extends N') (isKey : KeyOf arena N value key) :
    KeyOf arena N' value key := by
  cases isKey with
  | integer isData => exact .integer isData
  | leaf isData isLeaf => exact .leaf isData isLeaf
  | binary isData candidate left right =>
    exact .binary isData candidate (extends'.values left) (extends'.values right)

/-- A value has one key. -/
theorem KeyOf.unique (isKey : KeyOf arena N value key) (isKey' : KeyOf arena N value key') :
    key = key' := by
  cases isKey with
  | integer isData =>
    cases isKey' with
    | integer isData' => cases isData.symm.trans isData'; rfl
    | leaf isData' isLeaf =>
      cases isData.symm.trans isData'
      exact absurd rfl (isLeaf.notInteger _)
    | binary isData' => cases isData.symm.trans isData'
  | leaf isData isLeaf =>
    cases isKey' with
    | integer isData' =>
      cases isData.symm.trans isData'
      exact absurd rfl (isLeaf.notInteger _)
    | leaf isData' => cases isData.symm.trans isData'; rfl
    | binary isData' candidate =>
      cases isData.symm.trans isData'
      exact absurd candidate (isLeaf.notCandidate _ _ _ rfl)
  | binary isData candidate left right =>
    cases isKey' with
    | integer isData' => cases isData.symm.trans isData'
    | leaf isData' isLeaf =>
      cases isData.symm.trans isData'
      exact absurd candidate (isLeaf.notCandidate _ _ _ rfl)
    | binary isData' _ left' right' =>
      cases isData.symm.trans isData'
      cases left.symm.trans left'
      cases right.symm.trans right'
      rfl

/-- Giving a value the number of its key. -/
theorem Ok.record (ok : N.Ok arena) (isKey : KeyOf arena N value key)
    (unfolds : ∃ t, Unfolds arena value t) {keys : List (ValueKey × ValueNumber)} {next : Nat}
    (kept : ∀ {key n}, N.keys.lookup key = some n → keys.lookup key = some n)
    (bounded : ∀ {key n}, keys.lookup key = some n → n < next)
    (injective : ∀ {key key' n}, keys.lookup key = some n → keys.lookup key' = some n → key = key')
    (found : keys.lookup key = some n) :
    Ok arena ⟨next, Function.update N.values value (some n), keys⟩ ∧
      N.Extends ⟨next, Function.update N.values value (some n), keys⟩ := by
  have extends' : N.Extends ⟨next, Function.update N.values value (some n), keys⟩ := by
    refine ⟨kept, fun {other m} known => ?_⟩
    dsimp only
    by_cases same : other = value
    · subst same
      obtain ⟨key', isKey', found'⟩ := ok.keyed known
      rw [isKey.unique isKey'] at found
      rw [Function.update_self, ← found, kept found']
    · rw [Function.update_of_ne same, known]
  refine ⟨⟨bounded, injective, ?_, ?_⟩, extends'⟩
  · intro other m known
    dsimp only at known ⊢
    by_cases same : other = value
    · subst same
      rw [Function.update_self] at known
      cases known
      exact ⟨key, isKey.mono extends', found⟩
    · rw [Function.update_of_ne same] at known
      obtain ⟨key', isKey', found'⟩ := ok.keyed known
      exact ⟨key', isKey'.mono extends', kept found'⟩
  · intro other m known
    dsimp only at known
    by_cases same : other = value
    · subst same
      exact unfolds
    · rw [Function.update_of_ne same] at known
      exact ok.unfolds known

theorem Ok.intern (ok : N.Ok arena) (isKey : KeyOf arena N value key)
    (unfolds : ∃ t, Unfolds arena value t) (interned : N.intern value key = (n, N')) :
    N'.Ok arena ∧ N.Extends N' ∧ N'.values value = some n := by
  unfold ValueNumbers.intern at interned
  split at interned
  · next number found =>
      cases interned
      obtain ⟨ok', extends'⟩ :=
        ok.record isKey unfolds (fun known => known) ok.bounded ok.injective found
      exact ⟨ok', extends', Function.update_self ..⟩
  · next fresh =>
      cases interned
      have old : ∀ {key' m}, ((key, N.next) :: N.keys).lookup key' = some m →
          (key' = key ∧ m = N.next) ∨ N.keys.lookup key' = some m := by
        intro key' m known
        rw [List.lookup_cons] at known
        split at known
        · next same =>
            cases known
            exact .inl ⟨eq_of_beq same, rfl⟩
        · exact .inr known
      have kept : ∀ {key' m}, N.keys.lookup key' = some m →
          ((key, N.next) :: N.keys).lookup key' = some m := by
        intro key' m known
        have differ : key' ≠ key := by
          rintro rfl
          cases fresh.symm.trans known
        rw [List.lookup_cons, beq_eq_false_iff_ne.mpr differ]
        exact known
      obtain ⟨ok', extends'⟩ := ok.record isKey unfolds kept
        (fun known => by
          rcases old known with ⟨-, rfl⟩ | known
          · exact Nat.lt_succ_self _
          · exact Nat.lt_succ_of_lt (ok.bounded known))
        (fun known known' => by
          rcases old known with ⟨rfl, rfl⟩ | before
          · rcases old known' with ⟨rfl, -⟩ | before'
            · rfl
            · exact absurd (ok.bounded before') (Nat.lt_irrefl _)
          · rcases old known' with ⟨rfl, rfl⟩ | before'
            · exact absurd (ok.bounded before) (Nat.lt_irrefl _)
            · exact ok.injective before before')
        (List.lookup_cons_self ..)
      exact ⟨ok', extends', Function.update_self ..⟩

/-- The expression of an operation whose operands have numbers. -/
def IsExpr (arena : Arena) (N : ValueNumbers) (op : BinaryOp) (lhs rhs : Inst) (e : Expr) : Prop :=
  Candidate arena op lhs rhs ∧ ∃ l r, N.values lhs = some l ∧ N.values rhs = some r ∧
    e = .ordered .int32 op l r

variable {op op' : BinaryOp} {lhs rhs lhs' rhs' : Inst} {e e' : Expr}

theorem IsExpr.mono (extends' : N.Extends N') (isExpr : N.IsExpr arena op lhs rhs e) :
    N'.IsExpr arena op lhs rhs e := by
  obtain ⟨candidate, l, r, left, right, rfl⟩ := isExpr
  exact ⟨candidate, l, r, extends'.values left, extends'.values right, rfl⟩

theorem IsExpr.unique (isExpr : N.IsExpr arena op lhs rhs e)
    (isExpr' : N.IsExpr arena op lhs rhs e') : e = e' := by
  obtain ⟨-, l, r, left, right, rfl⟩ := isExpr
  obtain ⟨-, l', r', left', right', rfl⟩ := isExpr'
  cases left.symm.trans left'
  cases right.symm.trans right'
  rfl

/-- What a call that gives a value its number does. -/
structure Numbered (arena : Arena) (N : ValueNumbers) (value : Inst) (n : ValueNumber)
    (N' : ValueNumbers) : Prop where
  ok : N'.Ok arena
  grown : N.Extends N'
  number : N'.values value = some n

/-- What a call that finds the expression of an operation does. -/
structure Expressed (arena : Arena) (N : ValueNumbers) (op : BinaryOp) (lhs rhs : Inst)
    (found : Option Expr) (N' : ValueNumbers) : Prop where
  ok : N'.Ok arena
  grown : N.Extends N'
  none : found = none → ¬ Candidate arena op lhs rhs
  some : ∀ {e}, found = some e → N'.IsExpr arena op lhs rhs e

theorem leaf_of_ne {data : InstData} (notInteger : ∀ v, data.kind ≠ .integer v)
    (notBinary : ∀ op lhs rhs, data.kind ≠ .binary op lhs rhs) : Leaf arena data :=
  ⟨notInteger, fun op lhs rhs isBinary _ => notBinary op lhs rhs isBinary⟩

theorem specs (fuel : Nat) :
    (∀ {N N' value n}, N.Ok arena → number arena fuel N value = some (n, N') →
      Numbered arena N value n N') ∧
    (∀ {N N' op lhs rhs found}, N.Ok arena → expr arena fuel N op lhs rhs = some (found, N') →
      Expressed arena N op lhs rhs found N') := by
  induction fuel with
  | zero => exact ⟨fun _ ran => (by cases ran), fun _ ran => (by cases ran)⟩
  | succ fuel ih =>
    obtain ⟨numberSpec, exprSpec⟩ := ih
    constructor
    · intro N N' value n ok ran
      have interned : ∀ {M : ValueNumbers} {key : ValueKey}, M.Ok arena → N.Extends M →
          KeyOf arena M value key → (∃ t, Unfolds arena value t) →
          M.intern value key = (n, N') → Numbered arena N value n N' := by
        intro M key okM extendsM isKey unfolds interned
        obtain ⟨ok', extends', known⟩ := okM.intern isKey unfolds interned
        exact ⟨ok', extendsM.trans extends', known⟩
      rw [number] at ran
      split at ran
      · next known isKnown =>
          cases ran
          exact ⟨ok, .refl N, isKnown⟩
      · split at ran
        · cases ran
        · next ty v isData =>
            exact interned ok (.refl N) (.integer isData) ⟨_, .integer isData⟩
              (Option.some.inj ran)
        · next ty op lhs rhs isData =>
            split at ran
            · cases ran
            · next e M found =>
                have spec := exprSpec ok found
                obtain ⟨candidate, l, r, left, right, rfl⟩ := spec.some rfl
                obtain ⟨lt, isLeft⟩ := spec.ok.unfolds left
                obtain ⟨rt, isRight⟩ := spec.ok.unfolds right
                exact interned spec.ok spec.grown (.binary isData candidate left right)
                  ⟨_, .binary isData candidate isLeft isRight⟩ (Option.some.inj ran)
            · next M found =>
                have spec := exprSpec ok found
                have isLeaf : Leaf arena ⟨ty, .binary op lhs rhs⟩ := by
                  refine ⟨fun v isInteger => (by cases isInteger), ?_⟩
                  intro op' lhs' rhs' isBinary
                  cases isBinary
                  exact spec.none rfl
                exact interned spec.ok spec.grown (.leaf isData isLeaf)
                  ⟨_, .leaf isData isLeaf⟩ (Option.some.inj ran)
        · next ty kind notInteger notBinary isData =>
            have isLeaf : Leaf arena ⟨ty, kind⟩ := by
              refine leaf_of_ne ?_ ?_
              · rintro v rfl
                exact notInteger v rfl
              · rintro op lhs rhs rfl
                exact notBinary op lhs rhs rfl
            exact interned ok (.refl N) (.leaf isData isLeaf) ⟨_, .leaf isData isLeaf⟩
              (Option.some.inj ran)
    · intro N N' op lhs rhs found ok ran
      have unnumbered : ¬ Candidate arena op lhs rhs → N = N' → found = none →
          Expressed arena N op lhs rhs found N' := by
        rintro not rfl rfl
        exact ⟨ok, .refl N, fun _ => not, fun isSome => (by cases isSome)⟩
      rw [expr] at ran
      split at ran
      · cases ran
      · next lhsTy isLhs =>
          split at ran
          · next other =>
              cases ran
              refine unnumbered (fun candidate => other ?_) rfl rfl
              exact Option.some.inj (isLhs.symm.trans candidate.lhs)
          · next isInt =>
              obtain rfl : lhsTy = .int32 := not_not.mp isInt
              split at ran
              · cases ran
              · next rhsTy isRhs =>
                  split at ran
                  · next both =>
                      obtain ⟨isRhsInt, isOp⟩ := (Bool.and_eq_true _ _).mp both
                      obtain rfl := of_decide_eq_true isRhsInt
                      split at ran
                      · cases ran
                      · next l M leftFound =>
                          split at ran
                          · cases ran
                          · next r M' rightFound =>
                              cases ran
                              have left := numberSpec ok leftFound
                              have right := numberSpec left.ok rightFound
                              refine ⟨right.ok, left.grown.trans right.grown,
                                fun isNone => (by cases isNone), ?_⟩
                              intro e isSome
                              cases isSome
                              exact ⟨⟨isOp, isLhs, isRhs⟩, l, r,
                                right.grown.values left.number, right.number, rfl⟩
                  · next notBoth =>
                      cases ran
                      refine unnumbered (fun candidate => notBoth ?_) rfl rfl
                      have isInt := Option.some.inj (isRhs.symm.trans candidate.rhs)
                      simp [isInt, candidate.op]

theorem expr_spec {fuel : Nat} {found : Option Expr} (ok : N.Ok arena)
    (ran : expr arena fuel N op lhs rhs = some (found, N')) :
    Expressed arena N op lhs rhs found N' :=
  (specs fuel).2 ok ran

/-! ## Equal numbers -/

section

variable (ok : N.Ok arena) (known : N.values value = some n)
include ok known

/-- Values have one number exactly when they have one key. -/
theorem Ok.number_eq_iff_key (known' : N.values other = some m) (isKey : KeyOf arena N value key)
    (isKey' : KeyOf arena N other key') : n = m ↔ key = key' := by
  obtain ⟨found, isFound, lookup⟩ := ok.keyed known
  obtain ⟨found', isFound', lookup'⟩ := ok.keyed known'
  obtain rfl := isKey.unique isFound
  obtain rfl := isKey'.unique isFound'
  constructor
  · rintro rfl
    exact ok.injective lookup lookup'
  · rintro rfl
    exact Option.some.inj (lookup.symm.trans lookup')

/-- The operands of a numbered operation have numbers. -/
theorem Ok.operands {ty : Ty} (isData : arena value = some ⟨ty, .binary op lhs rhs⟩)
    (candidate : Candidate arena op lhs rhs) :
    ∃ l r, N.values lhs = some l ∧ N.values rhs = some r := by
  obtain ⟨key, isKey, -⟩ := ok.keyed known
  cases isKey with
  | integer isData' => cases isData.symm.trans isData'
  | leaf isData' isLeaf =>
    cases isData.symm.trans isData'
    exact absurd candidate (isLeaf.notCandidate _ _ _ rfl)
  | binary isData' _ left right =>
    cases isData.symm.trans isData'
    exact ⟨_, _, left, right⟩

/-- Values with numbers have the same number when they unfold to the same
expression. -/
theorem Ok.number_eq_iff {t u : Term} (known' : N.values other = some m)
    (unfolds : Unfolds arena value t) (unfolds' : Unfolds arena other u) : n = m ↔ t.Same u := by
  induction unfolds generalizing other u n m with
  | integer isData =>
    cases unfolds' with
    | integer isData' =>
      rw [ok.number_eq_iff_key known known' (.integer isData) (.integer isData')]
      simp [Term.Same]
    | leaf isData' isLeaf' =>
      rw [ok.number_eq_iff_key known known' (.integer isData) (.leaf isData' isLeaf')]
      simp [Term.Same]
    | binary isData' candidate' =>
      obtain ⟨l', r', left', right'⟩ := ok.operands known' isData' candidate'
      rw [ok.number_eq_iff_key known known' (.integer isData)
        (.binary isData' candidate' left' right')]
      simp [Term.Same]
  | leaf isData isLeaf =>
    cases unfolds' with
    | integer isData' =>
      rw [ok.number_eq_iff_key known known' (.leaf isData isLeaf) (.integer isData')]
      simp [Term.Same]
    | leaf isData' isLeaf' =>
      rw [ok.number_eq_iff_key known known' (.leaf isData isLeaf) (.leaf isData' isLeaf')]
      simp [Term.Same]
    | binary isData' candidate' =>
      obtain ⟨l', r', left', right'⟩ := ok.operands known' isData' candidate'
      rw [ok.number_eq_iff_key known known' (.leaf isData isLeaf)
        (.binary isData' candidate' left' right')]
      simp [Term.Same]
  | binary isData candidate leftUnfolds rightUnfolds leftIh rightIh =>
    obtain ⟨l, r, left, right⟩ := ok.operands known isData candidate
    have isKey := KeyOf.binary isData candidate left right
    cases unfolds' with
    | integer isData' =>
      rw [ok.number_eq_iff_key known known' isKey (.integer isData')]
      simp [Term.Same]
    | leaf isData' isLeaf' =>
      rw [ok.number_eq_iff_key known known' isKey (.leaf isData' isLeaf')]
      simp [Term.Same]
    | binary isData' candidate' leftUnfolds' rightUnfolds' =>
      obtain ⟨l', r', left', right'⟩ := ok.operands known' isData' candidate'
      rw [ok.number_eq_iff_key known known' isKey (.binary isData' candidate' left' right'),
        ValueKey.expr.injEq, ordered_eq_ordered_iff, Term.Same, leftIh left left' leftUnfolds',
        rightIh right right' rightUnfolds', Ne, leftIh left right rightUnfolds,
        leftIh left right' rightUnfolds', rightIh right left' leftUnfolds']

end

/-- Two operations whose operands have numbers have one expression exactly when they
are the same. -/
theorem Ok.expr_eq_iff (ok : N.Ok arena) (isExpr : N.IsExpr arena op lhs rhs e)
    (isExpr' : N.IsExpr arena op' lhs' rhs' e') :
    e = e' ↔ SameExpr arena op lhs rhs op' lhs' rhs' := by
  obtain ⟨candidate, l, r, left, right, rfl⟩ := isExpr
  obtain ⟨candidate', l', r', left', right', rfl⟩ := isExpr'
  have same : ∀ {lt rt lt' rt' : Term}, Unfolds arena lhs lt → Unfolds arena rhs rt →
      Unfolds arena lhs' lt' → Unfolds arena rhs' rt' →
        (Expr.ordered .int32 op l r = Expr.ordered .int32 op' l' r' ↔
          (Term.binary op lt rt).Same (.binary op' lt' rt')) := by
    intro lt rt lt' rt' isLeft isRight isLeft' isRight'
    rw [ordered_eq_ordered_iff, Term.Same, ok.number_eq_iff left left' isLeft isLeft',
      ok.number_eq_iff right right' isRight isRight', Ne,
      ok.number_eq_iff left right isLeft isRight, ok.number_eq_iff left right' isLeft isRight',
      ok.number_eq_iff right left' isRight isLeft']
  constructor
  · intro equal
    obtain ⟨lt, isLeft⟩ := ok.unfolds left
    obtain ⟨rt, isRight⟩ := ok.unfolds right
    obtain ⟨lt', isLeft'⟩ := ok.unfolds left'
    obtain ⟨rt', isRight'⟩ := ok.unfolds right'
    exact ⟨candidate, candidate', lt, rt, lt', rt', isLeft, isRight, isLeft', isRight',
      (same isLeft isRight isLeft' isRight').mp equal⟩
  · rintro ⟨-, -, lt, rt, lt', rt', isLeft, isRight, isLeft', isRight', isSame⟩
    exact (same isLeft isRight isLeft' isRight').mpr isSame

end ValueNumbers

end AnonCompiler.Opt.GvnPre
