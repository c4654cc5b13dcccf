import AnonCompiler.Opt.Gvn
import AnonCompiler.Opt.PreheaderRuns

/-!
# Equal expressions

`equal` and `insts_equal` of `ir/arena.rs` compare values by the expressions that compute
them.  Pairs that have been compared are remembered, a pair that is still being compared
counts as different, and the comparison gives up below a depth of 32.

What is found equal is related by every relation that expressions respect.  One such
relation is to have the same value where both are available.
-/

set_option autoImplicit false

namespace AnonCompiler.Opt.InstEquiv

open Ir

inductive InstEquivState where
  | visiting
  | equivalent (result : Bool)
deriving DecidableEq

/-- The pairs that have been compared; the latest entry counts. -/
abbrev EquivCache := List ((Inst × Inst) × InstEquivState)

/-- A pair is remembered in both orders. -/
def EquivCache.insert (cache : EquivCache) (lhs rhs : Inst) (state : InstEquivState) : EquivCache :=
  ((rhs, lhs), state) :: ((lhs, rhs), state) :: cache

def INST_EQUIV_DEPTH_LIMIT : Nat := 32

section Compare

variable (equiv : Inst → Inst → EquivCache → Option (Bool × EquivCache))

/-- Compare pairs until two differ. -/
def allEquiv : List (Inst × Inst) → EquivCache → Option (Bool × EquivCache)
  | [], cache => some (true, cache)
  | (lhs, rhs) :: rest, cache => do
      let (same, cache) ← equiv lhs rhs cache
      if same then allEquiv rest cache else some (false, cache)

def instsEquivAt (lhs rhs : List Inst) (cache : EquivCache) : Option (Bool × EquivCache) :=
  if lhs.length = rhs.length then allEquiv equiv (lhs.zip rhs) cache else some (false, cache)

/-- Compare two kinds of instructions of the same type. -/
def kindEquiv (P : Program) (F : FunctionData) (lhsKind rhsKind : InstKind) (cache : EquivCache) :
    Option (Bool × EquivCache) :=
  match lhsKind with
  | .integer lhs =>
    match rhsKind with
    | .integer rhs => some (lhs = rhs, cache)
    | _ => some (false, cache)
  | .float lhs =>
    match rhsKind with
    | .float rhs => some (lhs = rhs, cache)
    | _ => some (false, cache)
  | .zeroInit => some (rhsKind = .zeroInit, cache)
  | .binary op lhs rhs =>
    match rhsKind with
    | .binary op' lhs' rhs' =>
      if op = op' then do
        let (direct, cache) ← allEquiv equiv [(lhs, lhs'), (rhs, rhs')] cache
        if direct then some (true, cache)
        else do
          let lhsData ← P.instData F lhs
          if Gvn.isCommutativeFor op lhsData.ty then
            allEquiv equiv [(lhs, rhs'), (rhs, lhs')] cache
          else some (false, cache)
      else some (false, cache)
    | _ => some (false, cache)
  | .cast src =>
    match rhsKind with
    | .cast src' => equiv src src' cache
    | _ => some (false, cache)
  | .getElemPtr base offsets =>
    match rhsKind with
    | .getElemPtr base' offsets' => do
        let (same, cache) ← equiv base base' cache
        if same then instsEquivAt equiv offsets offsets' cache else some (false, cache)
    | _ => some (false, cache)
  | .aggregate value =>
    match rhsKind with
    | .aggregate value' => instsEquivAt equiv value value' cache
    | _ => some (false, cache)
  | _ => some (false, cache)

end Compare

/-- Compare two values, `depth` levels deep. -/
def instEquiv (P : Program) (F : FunctionData) :
    Nat → Inst → Inst → EquivCache → Option (Bool × EquivCache)
  | 0, lhs, rhs, cache => some (lhs = rhs, cache)
  | depth + 1, lhs, rhs, cache =>
    if lhs = rhs then some (true, cache)
    else
      match cache.lookup (lhs, rhs) with
      | some state => some (state = .equivalent true, cache)
      | none => do
          let lhsData ← P.instData F lhs
          let rhsData ← P.instData F rhs
          if lhsData.ty ≠ rhsData.ty ∨ lhsData.kind.ctorIdx ≠ rhsData.kind.ctorIdx then
            some (false, cache)
          else do
            let (same, cache) ← kindEquiv (instEquiv P F depth) P F lhsData.kind rhsData.kind
              (cache.insert lhs rhs .visiting)
            some (same, cache.insert lhs rhs (.equivalent same))

/-- Compare lists of values with one cache. -/
def instsEqual (P : Program) (F : FunctionData) (lhs rhs : List Inst) : Option Bool :=
  (instsEquivAt (instEquiv P F INST_EQUIV_DEPTH_LIMIT) lhs rhs []).map Prod.fst

/-! ## What is found equal -/

/-- Kinds with related operands, which may be swapped where the operator commutes. -/
inductive SameKind (P : Program) (F : FunctionData) (R : Inst → Inst → Prop) :
    InstKind → InstKind → Prop where
  | integer (value : BitVec 32) : SameKind P F R (.integer value) (.integer value)
  | float (bits : BitVec 32) : SameKind P F R (.float bits) (.float bits)
  | zeroInit : SameKind P F R .zeroInit .zeroInit
  | binary (op : BinaryOp) {lhs rhs lhs' rhs' : Inst} (left : R lhs lhs') (right : R rhs rhs') :
      SameKind P F R (.binary op lhs rhs) (.binary op lhs' rhs')
  | swapped {op : BinaryOp} {lhs rhs lhs' rhs' : Inst} {ty : Ty}
      (operandTy : P.typeOf F lhs = some ty)
      (commutes : Gvn.isCommutativeFor op ty = true) (left : R lhs rhs') (right : R rhs lhs') :
      SameKind P F R (.binary op lhs rhs) (.binary op lhs' rhs')
  | cast {src src' : Inst} (same : R src src') : SameKind P F R (.cast src) (.cast src')
  | getElemPtr {base base' : Inst} {offsets offsets' : List Inst} (same : R base base')
      (each : List.Forall₂ R offsets offsets') :
      SameKind P F R (.getElemPtr base offsets) (.getElemPtr base' offsets')
  | aggregate {value value' : List Inst} (each : List.Forall₂ R value value') :
      SameKind P F R (.aggregate value) (.aggregate value')

/-- A relation that expressions respect. -/
structure Congruence (P : Program) (F : FunctionData) (R : Inst → Inst → Prop) : Prop where
  refl : ∀ x, R x x
  symm : ∀ {x y}, R x y → R y x
  step : ∀ {x y ty kind kind'}, P.instData F x = some ⟨ty, kind⟩ →
    P.instData F y = some ⟨ty, kind'⟩ → SameKind P F R kind kind' → R x y

/-- What is remembered as equal is related. -/
def EquivCache.Ok (R : Inst → Inst → Prop) (cache : EquivCache) : Prop :=
  ∀ x y, cache.lookup (x, y) = some (.equivalent true) → R x y

/-- A comparison that finds only related values equal. -/
def Finds (R : Inst → Inst → Prop)
    (equiv : Inst → Inst → EquivCache → Option (Bool × EquivCache)) : Prop :=
  ∀ {lhs rhs cache same cache'}, cache.Ok R → equiv lhs rhs cache = some (same, cache') →
    cache'.Ok R ∧ (same = true → R lhs rhs)

section Sound

variable {P : Program} {F : FunctionData} {R : Inst → Inst → Prop}
  {equiv : Inst → Inst → EquivCache → Option (Bool × EquivCache)} {cache cache' : EquivCache}
  {same : Bool}

theorem EquivCache.Ok.insert (ok : cache.Ok R) {lhs rhs : Inst} {state : InstEquivState}
    (related : state = .equivalent true → R lhs rhs ∧ R rhs lhs) :
    (cache.insert lhs rhs state).Ok R := by
  intro x y found
  rw [EquivCache.insert, List.lookup_cons, List.lookup_cons] at found
  split at found
  · next here =>
      cases eq_of_beq here
      exact (related (Option.some.inj found)).2
  · split at found
    · next here =>
        cases eq_of_beq here
        exact (related (Option.some.inj found)).1
    · exact ok x y found

section

variable (finds : Finds R equiv) (ok : cache.Ok R)
include finds ok

theorem allEquiv_finds {pairs : List (Inst × Inst)}
    (run : allEquiv equiv pairs cache = some (same, cache')) :
    cache'.Ok R ∧ (same = true → ∀ {x y}, (x, y) ∈ pairs → R x y) := by
  induction pairs generalizing cache with
  | nil =>
    cases run
    exact ⟨ok, fun _ {x y} member => absurd member List.not_mem_nil⟩
  | cons pair rest ih =>
    obtain ⟨lhs, rhs⟩ := pair
    obtain ⟨⟨first, cache₁⟩, compared, run⟩ := Option.bind_eq_some_iff.mp run
    obtain ⟨ok₁, related⟩ := finds ok compared
    dsimp only at run
    split at run
    · next isSame =>
        obtain ⟨ok₂, later⟩ := ih ok₁ run
        refine ⟨ok₂, fun all {x y} member => ?_⟩
        rcases List.mem_cons.mp member with here | later'
        · cases here
          exact related isSame
        · exact later all later'
    · cases run
      exact ⟨ok₁, fun differ => absurd differ Bool.false_ne_true⟩

theorem instsEquivAt_finds {lhs rhs : List Inst}
    (run : instsEquivAt equiv lhs rhs cache = some (same, cache')) :
    cache'.Ok R ∧ (same = true → List.Forall₂ R lhs rhs) := by
  unfold instsEquivAt at run
  split at run
  · next length =>
      obtain ⟨ok', all⟩ := allEquiv_finds finds ok run
      exact ⟨ok', fun isSame => List.forall₂_iff_zip.mpr ⟨length, all isSame⟩⟩
  · cases run
    exact ⟨ok, fun differ => absurd differ Bool.false_ne_true⟩

/-- One case for each kind that is compared. -/
theorem kindEquiv_finds {kind kind' : InstKind}
    (run : kindEquiv equiv P F kind kind' cache = some (same, cache')) :
    cache'.Ok R ∧ (same = true → SameKind P F R kind kind') := by
  have differ : ∀ {C : Prop}, false = true → C := fun isSame => absurd isSame Bool.false_ne_true
  unfold kindEquiv at run
  cases kind with
  | integer lhs =>
    dsimp only at run
    split at run
    · cases run
      exact ⟨ok, fun isSame => of_decide_eq_true isSame ▸ .integer _⟩
    · cases run
      exact ⟨ok, differ⟩
  | float lhs =>
    dsimp only at run
    split at run
    · cases run
      exact ⟨ok, fun isSame => of_decide_eq_true isSame ▸ .float _⟩
    · cases run
      exact ⟨ok, differ⟩
  | zeroInit =>
    cases run
    refine ⟨ok, fun isSame => ?_⟩
    rw [of_decide_eq_true isSame]
    exact .zeroInit
  | binary op lhs rhs =>
    dsimp only at run
    split at run
    · next op' lhs' rhs' =>
        split at run
        · next sameOp =>
            subst sameOp
            obtain ⟨⟨direct, cache₁⟩, compared, run⟩ := Option.bind_eq_some_iff.mp run
            obtain ⟨ok₁, related⟩ := allEquiv_finds finds ok compared
            dsimp only at run
            split at run
            · next isDirect =>
                cases run
                exact ⟨ok₁, fun _ =>
                  .binary op (related isDirect (by simp)) (related isDirect (by simp))⟩
            · obtain ⟨lhsData, found, run⟩ := Option.bind_eq_some_iff.mp run
              split at run
              · next commutes =>
                  obtain ⟨ok₂, related⟩ := allEquiv_finds finds ok₁ run
                  have operandTy : P.typeOf F lhs = some lhsData.ty := by
                    rw [Program.typeOf, found]
                    rfl
                  exact ⟨ok₂, fun isSame => .swapped operandTy commutes
                    (related isSame (by simp)) (related isSame (by simp))⟩
              · cases run
                exact ⟨ok₁, differ⟩
        · cases run
          exact ⟨ok, differ⟩
    · cases run
      exact ⟨ok, differ⟩
  | cast src =>
    dsimp only at run
    split at run
    · obtain ⟨ok', related⟩ := finds ok run
      exact ⟨ok', fun isSame => .cast (related isSame)⟩
    · cases run
      exact ⟨ok, differ⟩
  | getElemPtr base offsets =>
    dsimp only at run
    split at run
    · obtain ⟨⟨first, cache₁⟩, compared, run⟩ := Option.bind_eq_some_iff.mp run
      obtain ⟨ok₁, related⟩ := finds ok compared
      dsimp only at run
      split at run
      · next isSame =>
          obtain ⟨ok₂, each⟩ := instsEquivAt_finds finds ok₁ run
          exact ⟨ok₂, fun all => .getElemPtr (related isSame) (each all)⟩
      · cases run
        exact ⟨ok₁, differ⟩
    · cases run
      exact ⟨ok, differ⟩
  | aggregate value =>
    dsimp only at run
    split at run
    · obtain ⟨ok', each⟩ := instsEquivAt_finds finds ok run
      exact ⟨ok', fun isSame => .aggregate (each isSame)⟩
    · cases run
      exact ⟨ok, differ⟩
  | _ =>
    cases run
    exact ⟨ok, differ⟩

end

theorem instEquiv_finds (congruence : Congruence P F R) (depth : Nat) :
    Finds R (instEquiv P F depth) := by
  induction depth with
  | zero =>
    intro lhs rhs cache same cache' ok run
    cases run
    exact ⟨ok, fun isSame => of_decide_eq_true isSame ▸ congruence.refl _⟩
  | succ depth ih =>
    intro lhs rhs cache same cache' ok run
    rw [instEquiv] at run
    split at run
    · next isSame =>
        cases run
        exact ⟨ok, fun _ => isSame ▸ congruence.refl _⟩
    · split at run
      · next state known =>
          cases run
          refine ⟨ok, fun isSame => ok _ _ ?_⟩
          rw [known, of_decide_eq_true isSame]
      · obtain ⟨⟨ty, kind⟩, found, run⟩ := Option.bind_eq_some_iff.mp run
        obtain ⟨⟨ty', kind'⟩, found', run⟩ := Option.bind_eq_some_iff.mp run
        split at run
        · cases run
          exact ⟨ok, fun differ => absurd differ Bool.false_ne_true⟩
        · next alike =>
            obtain ⟨sameTy, -⟩ := not_or.mp alike
            obtain rfl : ty = ty' := not_not.mp sameTy
            obtain ⟨⟨result, cache₁⟩, compared, run⟩ := Option.bind_eq_some_iff.mp run
            cases run
            have visiting : (cache.insert lhs rhs .visiting).Ok R := ok.insert (by simp)
            obtain ⟨ok₁, related⟩ := kindEquiv_finds ih visiting compared
            have step : same = true → R lhs rhs := fun isSame =>
              congruence.step found found' (related isSame)
            refine ⟨ok₁.insert fun isSame => ?_, step⟩
            have isSame := InstEquivState.equivalent.inj isSame
            exact ⟨step isSame, congruence.symm (step isSame)⟩

/-- Lists found equal are related element by element. -/
theorem instsEqual_sound (congruence : Congruence P F R) {lhs rhs : List Inst}
    (equal : instsEqual P F lhs rhs = some true) : List.Forall₂ R lhs rhs := by
  obtain ⟨⟨same, cache⟩, run, isSame⟩ := Option.map_eq_some_iff.mp equal
  have empty : EquivCache.Ok R [] := fun x y found => absurd found (by simp)
  exact (instsEquivAt_finds (instEquiv_finds congruence _) empty run).2 isSame

end Sound

/-! ## The comparison ends -/

/-- Operands are in the arena, and no terminator is one. -/
def OperandsKnown (P : Program) (F : FunctionData) : Prop :=
  ∀ {inst data x}, P.instData F inst = some data → x ∈ data.kind.instUsage →
    ∃ operand, P.instData F x = some operand ∧ operand.kind.isTerminator = false

/-- The comparison of values in the arena gives an answer. -/
def Answers (P : Program) (F : FunctionData)
    (equiv : Inst → Inst → EquivCache → Option (Bool × EquivCache)) : Prop :=
  ∀ {lhs rhs} cache, P.instData F lhs ≠ none → P.instData F rhs ≠ none →
    ∃ answer, equiv lhs rhs cache = some answer

section Answer

variable {P : Program} {F : FunctionData}
  {equiv : Inst → Inst → EquivCache → Option (Bool × EquivCache)}

variable {lhs rhs : List Inst}

section

variable (answers : Answers P F equiv) (cache : EquivCache)
include answers cache

theorem allEquiv_answers {pairs : List (Inst × Inst)}
    (present : ∀ {x y}, (x, y) ∈ pairs → P.instData F x ≠ none ∧ P.instData F y ≠ none) :
    ∃ answer, allEquiv equiv pairs cache = some answer := by
  induction pairs generalizing cache with
  | nil => exact ⟨_, rfl⟩
  | cons pair rest ih =>
    obtain ⟨lhs, rhs⟩ := pair
    obtain ⟨presentL, presentR⟩ := present List.mem_cons_self
    obtain ⟨⟨same, cache₁⟩, compared⟩ := answers cache presentL presentR
    rw [allEquiv, compared]
    cases same with
    | false => exact ⟨_, rfl⟩
    | true => exact ih cache₁ fun member => present (List.mem_cons_of_mem _ member)

theorem instsEquivAt_answers (presentL : ∀ x ∈ lhs, P.instData F x ≠ none)
    (presentR : ∀ x ∈ rhs, P.instData F x ≠ none) :
    ∃ answer, instsEquivAt equiv lhs rhs cache = some answer := by
  unfold instsEquivAt
  split
  · exact allEquiv_answers answers cache fun member =>
      ⟨presentL _ (List.of_mem_zip member).1, presentR _ (List.of_mem_zip member).2⟩
  · exact ⟨_, rfl⟩

theorem kindEquiv_answers {kind kind' : InstKind}
    (presentL : ∀ x ∈ kind.instUsage, P.instData F x ≠ none)
    (presentR : ∀ x ∈ kind'.instUsage, P.instData F x ≠ none) :
    ∃ answer, kindEquiv equiv P F kind kind' cache = some answer := by
  unfold kindEquiv
  cases kind with
  | integer lhs | float lhs =>
    dsimp only
    split <;> exact ⟨_, rfl⟩
  | binary op lhs rhs =>
    dsimp only
    split
    · next op' lhs' rhs' =>
        simp only [InstKind.instUsage, List.forall_mem_cons] at presentL presentR
        have pairs : ∀ (l₁ r₁ l₂ r₂ : Inst) (cache : EquivCache), P.instData F l₁ ≠ none →
            P.instData F r₁ ≠ none → P.instData F l₂ ≠ none → P.instData F r₂ ≠ none →
              ∃ answer, allEquiv equiv [(l₁, r₁), (l₂, r₂)] cache = some answer := by
          intro l₁ r₁ l₂ r₂ cache hl₁ hr₁ hl₂ hr₂
          refine allEquiv_answers answers cache fun {x y} member => ?_
          rcases List.mem_cons.mp member with first | second
          · cases first
            exact ⟨hl₁, hr₁⟩
          · cases List.mem_singleton.mp second
            exact ⟨hl₂, hr₂⟩
        split
        · obtain ⟨⟨direct, cache₁⟩, compared⟩ :=
            pairs lhs lhs' rhs rhs' cache presentL.1 presentR.1 presentL.2.1 presentR.2.1
          rw [compared]
          cases direct with
          | true => exact ⟨_, rfl⟩
          | false =>
            obtain ⟨lhsData, found⟩ := Option.ne_none_iff_exists'.mp presentL.1
            simp only [Option.bind_eq_bind, Option.bind_some, Bool.false_eq_true, if_false, found]
            split
            · exact pairs lhs rhs' rhs lhs' cache₁ presentL.1 presentR.2.1 presentL.2.1
                presentR.1
            · exact ⟨_, rfl⟩
        · exact ⟨_, rfl⟩
    · exact ⟨_, rfl⟩
  | cast src =>
    dsimp only
    split
    · exact answers cache (presentL _ List.mem_cons_self) (presentR _ List.mem_cons_self)
    · exact ⟨_, rfl⟩
  | getElemPtr base offsets =>
    dsimp only
    split
    · next base' offsets' =>
        obtain ⟨⟨same, cache₁⟩, compared⟩ := answers cache (presentL base List.mem_cons_self)
          (presentR base' List.mem_cons_self)
        rw [compared]
        cases same with
        | false => exact ⟨_, rfl⟩
        | true =>
          exact instsEquivAt_answers answers cache₁
            (fun x member => presentL x (List.mem_cons_of_mem _ member))
            (fun x member => presentR x (List.mem_cons_of_mem _ member))
    · exact ⟨_, rfl⟩
  | aggregate value =>
    dsimp only
    split
    · exact instsEquivAt_answers answers cache presentL presentR
    · exact ⟨_, rfl⟩
  | _ => exact ⟨_, rfl⟩

end

theorem instEquiv_answers (operands : OperandsKnown P F) (depth : Nat) :
    Answers P F (instEquiv P F depth) := by
  have present : ∀ {inst data}, P.instData F inst = some data →
      ∀ x ∈ data.kind.instUsage, P.instData F x ≠ none := by
    intro inst data found x used
    obtain ⟨operand, found', -⟩ := operands found used
    simp [found']
  induction depth with
  | zero => exact fun {lhs rhs} cache _ _ => ⟨_, rfl⟩
  | succ depth ih =>
    intro lhs rhs cache presentL presentR
    rw [instEquiv]
    split
    · exact ⟨_, rfl⟩
    · split
      · exact ⟨_, rfl⟩
      · obtain ⟨lhsData, found⟩ := Option.ne_none_iff_exists'.mp presentL
        obtain ⟨rhsData, found'⟩ := Option.ne_none_iff_exists'.mp presentR
        simp only [found, found', Option.bind_eq_bind, Option.bind_some]
        split
        · exact ⟨_, rfl⟩
        · obtain ⟨answer, compared⟩ := kindEquiv_answers ih (cache.insert lhs rhs .visiting)
            (present found) (present found')
          rw [compared]
          exact ⟨_, rfl⟩

theorem instsEqual_answers (operands : OperandsKnown P F)
    (presentL : ∀ x ∈ lhs, P.instData F x ≠ none) (presentR : ∀ x ∈ rhs, P.instData F x ≠ none) :
    ∃ answer, instsEqual P F lhs rhs = some answer := by
  obtain ⟨answer, run⟩ := instsEquivAt_answers (instEquiv_answers operands INST_EQUIV_DEPTH_LIMIT)
    []
    presentL presentR
  exact ⟨answer.1, by rw [instsEqual, run]; rfl⟩

end Answer

/-! ## Operators that commute -/

/-- What `is_commutative_for` takes from floating point. -/
structure Commutes (floats : FloatOps) : Prop where
  binary : ∀ {op}, op = .min ∨ op = .max → ∀ a b, floats.binary op a b = floats.binary op b a
  compare : ∀ {op}, op = .eq ∨ op = .notEq → ∀ a b, floats.compare op a b = floats.compare op b a

variable {op : BinaryOp} {floats : FloatOps} {F : FunctionData} {v x : Inst} {data : InstData}

theorem foldBinary_comm (commutes : Gvn.isCommutativeFor op .int32 = true) (a b : BitVec 32) :
    foldBinary op a b = foldBinary op b a := by
  cases op with
  | add => rw [foldBinary, foldBinary, BitVec.add_comm]
  | mul => rw [foldBinary, foldBinary, BitVec.mul_comm]
  | and => rw [foldBinary, foldBinary, BitVec.and_comm]
  | or => rw [foldBinary, foldBinary, BitVec.or_comm]
  | xor => rw [foldBinary, foldBinary, BitVec.xor_comm]
  | eq => rw [foldBinary, foldBinary, Bool.beq_comm]
  | notEq => rw [foldBinary, foldBinary, bne_comm]
  | min | max =>
    simp only [foldBinary, BitVec.slt_eq_decide, decide_eq_true_eq, Option.some.injEq]
    split <;> split <;> first | rfl | omega | (exact BitVec.eq_of_toInt_eq (by omega))
  | _ => cases commutes

/-- Away from `i32` only four operators commute. -/
theorem op_of_commutes {ty : Ty} (commutes : Gvn.isCommutativeFor op ty = true)
    (notInt : ty ≠ .int32) : op = .eq ∨ op = .notEq ∨ op = .min ∨ op = .max := by
  cases op with
  | eq | notEq | min | max => simp
  | add | mul | and | or | xor => exact absurd (of_decide_eq_true commutes) notInt
  | _ => cases commutes

theorem mapM_zip_comm {f : BitVec 32 → BitVec 32 → Option (BitVec 32)} (comm : ∀ a b, f a b = f b a)
    (xs ys : List (BitVec 32)) :
    ((xs.zip ys).mapM fun pair => f pair.1 pair.2) =
      (ys.zip xs).mapM fun pair => f pair.1 pair.2 := by
  induction xs generalizing ys with
  | nil => cases ys <;> rfl
  | cons x xs ih =>
    cases ys with
    | nil => rfl
    | cons y ys => rw [List.zip_cons_cons, List.zip_cons_cons, List.mapM_cons, List.mapM_cons, ih,
      comm]

theorem lane_comm (floatsCommute : Commutes floats)
    (isOp : op = .eq ∨ op = .notEq ∨ op = .min ∨ op = .max) (elem : Ty) (a b : BitVec 32) :
    floats.lane elem op a b = floats.lane elem op b a := by
  have ints : foldBinary op a b = foldBinary op b a :=
    foldBinary_comm (by rcases isOp with rfl | rfl | rfl | rfl <;> rfl) a b
  rcases isOp with rfl | rfl | rfl | rfl
  · simp [FloatOps.lane, BinaryOp.isCompare, floatsCommute.compare (.inl rfl) a b, ints]
  · simp [FloatOps.lane, BinaryOp.isCompare, floatsCommute.compare (.inr rfl) a b, ints]
  · simp [FloatOps.lane, BinaryOp.isCompare, floatsCommute.binary (.inl rfl) a b, ints]
  · simp [FloatOps.lane, BinaryOp.isCompare, floatsCommute.binary (.inr rfl) a b, ints]

/-- An operator that commutes for the type gives the same result for swapped operands. -/
theorem binaryVal_comm (floatsCommute : Commutes floats) {operandTy : Ty}
    (commutes : Gvn.isCommutativeFor op operandTy = true) {lhs rhs : Val}
    (leftTy : lhs.HasTy operandTy) (rightTy : rhs.HasTy operandTy) (ty : Ty) :
    binaryVal floats ty op lhs rhs = binaryVal floats ty op rhs lhs := by
  have total : op.divides = false := by cases op <;> first | rfl | cases commutes
  cases lhs with
  | int a =>
    obtain rfl : operandTy = .int32 := leftTy
    cases rhs with
    | int b => rw [binaryVal_int, binaryVal_int, foldBinary_comm commutes]
    | _ => simp [binaryVal, total]
  | float a =>
    obtain rfl : operandTy = .float32 := leftTy
    cases rhs with
    | float b =>
      rcases op_of_commutes commutes (by decide) with rfl | rfl | rfl | rfl
      · simp only [binaryVal, floatsCommute.compare (.inl rfl) a b]
        rfl
      · simp only [binaryVal, floatsCommute.compare (.inr rfl) a b]
        rfl
      · simp only [binaryVal, floatsCommute.binary (.inl rfl) a b]
        rfl
      · simp only [binaryVal, floatsCommute.binary (.inr rfl) a b]
        rfl
    | _ => simp [binaryVal, total]
  | vec a =>
    obtain ⟨elem, rfl, -⟩ := leftTy
    cases rhs with
    | vec b =>
      have isOp := op_of_commutes commutes (by simp)
      cases ty with
      | vector elem' lanes =>
        simp only [binaryVal, total, Bool.false_eq_true, false_and, if_false]
        rw [mapM_zip_comm (lane_comm floatsCommute isOp elem')]
        by_cases length : a.length = b.length
        · rw [if_pos length, if_pos length.symm]
        · rw [if_neg length, if_neg (Ne.symm length)]
      | _ => simp [binaryVal, total]
    | _ => simp [binaryVal, total]
  | _ => cases rhs <;> simp [binaryVal, total]

/-! ## Values found equal -/

/-- A constant, or a value that is available. -/
def Known (F : FunctionData) (a : Activation) (done : List Inst) (x : Inst) : Prop :=
  F.IsConst x ∨ F.Avail a.block done x

/-- Where a value is missing, so are its users. -/
theorem missing_user (wellFormed : F.WellFormed) (ssa : F.Ssa) (found : F.insts v = some data)
    (laidOut : v ∈ F.layoutInsts) (used : x ∈ data.kind.instUsage) (notConst : ¬ F.IsConst x)
    {bb : BasicBlock} (missing : F.Missing x bb) : F.Missing v bb := by
  induction missing with
  | entry isEntry => exact .entry isEntry (wellFormed.not_param laidOut _)
  | @edge bb insts e before block notHere leaves notParam ih =>
    refine .edge ih block (fun member => ?_) leaves (wellFormed.not_param laidOut _)
    obtain ⟨pre, post, rfl⟩ := List.append_of_mem member
    rcases (ssa.uses block found used).resolve_left notConst with early | available
    · exact notHere (List.mem_append_left _ early)
    · exact available before

/-- The operands of an available value are known. -/
theorem known_operand (wellFormed : F.WellFormed) (ssa : F.Ssa) {a : Activation} {done : List Inst}
    (place : a.At F done) (found : F.insts v = some data) (laidOut : v ∈ F.layoutInsts)
    (available : F.Avail a.block done v) (used : x ∈ data.kind.instUsage) : Known F a done x := by
  by_cases isConst : F.IsConst x
  · exact .inl isConst
  · refine .inr ?_
    rcases available with early | available
    · obtain ⟨pre, post, rfl⟩ := List.append_of_mem early
      have block := place.block
      rw [List.append_assoc, List.cons_append] at block
      exact ((ssa.uses block found used).resolve_left isConst).imp_left (List.mem_append_left _)
    · exact .inr fun missing =>
        available (missing_user wellFormed ssa found laidOut used isConst missing)

/-- The same type, the same value where both are known, and the same bytes in a constant. -/
structure Agree (P : Program) (X : Ctx) (F : FunctionData) (a : Activation) (done : List Inst)
    (x y : Inst) : Prop where
  ty : P.typeOf F x = P.typeOf F y
  operand : Known F a done x → Known F a done y → X.operand F a.env x = X.operand F a.env y
  bytes : ∀ ty, Ctx.constBytes (X.instData F) ty x = Ctx.constBytes (X.instData F) ty y

section Values

variable {P : Program} {F : FunctionData} {X : Ctx} {a : Activation} {done : List Inst} {x y : Inst}
  {ty : Ty} {kind kind' : InstKind}

theorem agree_operands {xs ys : List Inst} (each : List.Forall₂ (Agree P X F a done) xs ys)
    (knownL : ∀ x ∈ xs, Known F a done x) (knownR : ∀ y ∈ ys, Known F a done y) :
    X.operands F a.env xs = X.operands F a.env ys := by
  induction each with
  | nil => rfl
  | cons same _ ih =>
    rw [List.forall_mem_cons] at knownL knownR
    have later := ih knownL.2 knownR.2
    simp only [Ctx.operands] at later
    simp only [Ctx.operands, List.mapM_cons, later, same.operand knownL.1 knownR.1]

theorem agree_bytes {base : Ty} {xs ys : List Inst}
    (each : List.Forall₂ (Agree P X F a done) xs ys) :
    xs.mapM (Ctx.constBytes (X.instData F) base) =
      ys.mapM (Ctx.constBytes (X.instData F) base) := by
  induction each with
  | nil => rfl
  | cons same _ ih => simp only [List.mapM_cons, ih, same.bytes base]

variable (globals : X.globals = P.globals) (found : P.instData F x = some ⟨ty, kind⟩)
  (found' : P.instData F y = some ⟨ty, kind'⟩)

include globals found found'

/-- Constants of one kind. -/
theorem agree_of_const (isConst : Ctx.isConst kind = true) (isConst' : Ctx.isConst kind' = true)
    (value : X.constVal F x ⟨ty, kind⟩ = X.constVal F y ⟨ty, kind'⟩)
    (bytes : ∀ ty, Ctx.constBytes (X.instData F) ty x = Ctx.constBytes (X.instData F) ty y) :
    Agree P X F a done x y := by
  have sameTy : P.typeOf F x = P.typeOf F y := by
    rw [Program.typeOf, Program.typeOf, found, found']
    rfl
  refine ⟨sameTy, fun _ _ => ?_, bytes⟩
  rw [← Ctx.instData_eq globals] at found found'
  simp only [Ctx.operand, found, found', isConst, isConst', if_true, value]

omit globals found found' in
/-- What is no constant is no global. -/
theorem insts_of_instData {z : Inst} {data : InstData}
    (constants : ∀ {x data}, P.globals x = some data → Ctx.isConst data.kind = true)
    (found : P.instData F z = some data) (notConst : Ctx.isConst data.kind = false) :
    z.isGlobal = false ∧ F.insts z = some data := by
  unfold Program.instData at found
  split at found
  · exact absurd (notConst.symm.trans (constants found)) Bool.false_ne_true
  · next isLocal => exact ⟨Bool.eq_false_iff.mpr isLocal, found⟩

/-- Values that are computed alike. -/
theorem agree_of_value (wellFormed : F.WellFormed) (ssa : F.Ssa) (place : a.Consistent X F done)
    (constants : ∀ {x data}, P.globals x = some data → Ctx.isConst data.kind = true)
    (isPure : kind.isPure = true) (isPure' : kind'.isPure = true)
    (value : (∀ u ∈ kind.instUsage, Known F a done u) → (∀ u ∈ kind'.instUsage, Known F a done u) →
      X.pureVal F a.env ⟨ty, kind⟩ = X.pureVal F a.env ⟨ty, kind'⟩) :
    Agree P X F a done x y := by
  have notConst : ∀ {kind : InstKind}, kind.isPure = true → Ctx.isConst kind = false := by
    intro kind isPure
    cases kind <;> first | rfl | cases isPure
  -- an available value is laid out and satisfies its equation
  have laidOut : ∀ {z kind}, P.instData F z = some ⟨ty, kind⟩ → kind.isPure = true →
      Known F a done z → F.insts z = some ⟨ty, kind⟩ ∧ z ∈ F.layoutInsts ∧
        F.Avail a.block done z := by
    intro z kind found isPure known
    obtain ⟨isLocal, isData⟩ := insts_of_instData constants found (notConst isPure)
    rcases known with (isGlobal | ⟨data, found', isConst⟩) | available
    · exact absurd (isLocal.symm.trans isGlobal) Bool.false_ne_true
    · cases isData.symm.trans found'
      exact absurd ((notConst isPure).symm.trans isConst) Bool.false_ne_true
    · refine ⟨isData, ?_, available⟩
      refine (FunctionData.Ssa.avail_defined place.reached place.block available).resolve_right ?_
      rintro ⟨bb, isParam⟩
      obtain ⟨data, index, found', isRef⟩ := wellFormed.blockParam isParam
      cases isData.symm.trans found'
      dsimp only at isRef
      subst isRef
      cases isPure
  have sameTy : P.typeOf F x = P.typeOf F y := by
    rw [Program.typeOf, Program.typeOf, found, found']
    rfl
  refine ⟨sameTy, fun known known' => ?_, fun ty' => ?_⟩
  · obtain ⟨isData, inLayout, available⟩ := laidOut found isPure known
    obtain ⟨isData', inLayout', available'⟩ := laidOut found' isPure' known'
    have same := value
      (fun u used => known_operand wellFormed ssa place.toAt isData inLayout available used)
      (fun u used => known_operand wellFormed ssa place.toAt isData' inLayout' available' used)
    rw [← Ctx.instData_eq globals] at found found'
    simp only [Ctx.operand, found, found', notConst isPure, notConst isPure', Bool.false_eq_true,
      if_false]
    rw [← place.equation isData inLayout isPure available,
      ← place.equation isData' inLayout' isPure' available', same]
  · rw [← Ctx.instData_eq globals] at found found'
    have unknown : Ctx.Unknown (X.instData F x) := fun data same => by
      cases found.symm.trans same
      exact notConst isPure
    have unknown' : Ctx.Unknown (X.instData F y) := fun data same => by
      cases found'.symm.trans same
      exact notConst isPure'
    rw [Ctx.constBytes_unknown ty' unknown, Ctx.constBytes_unknown ty' unknown']

omit found found' in
/-- Agreement is respected by expressions. -/
theorem agree_congruence (wellFormed : F.WellFormed) (typed : F.WellTyped P) (ssa : F.Ssa)
    (types : F.Shaped P)
    (constants : ∀ {x data}, P.globals x = some data → Ctx.isConst data.kind = true)
    (floatsCommute : Commutes X.floats) (place : a.Consistent X F done)
    (shaped : Env.Shaped F a.env) : Congruence P F (Agree P X F a done) where
  refl x := ⟨rfl, fun _ _ => rfl, fun _ => rfl⟩
  symm same := ⟨same.ty.symm, fun known known' => (same.operand known' known).symm,
    fun ty => (same.bytes ty).symm⟩
  step := by
    intro x y ty kind kind' found found' alike
    -- the bytes of a constant depend on its data only
    have sameBytes : kind = kind' → ∀ ty, Ctx.constBytes (X.instData F) ty x =
        Ctx.constBytes (X.instData F) ty y := by
      rintro rfl ty'
      have same : X.instData F x = X.instData F y := by
        rw [Ctx.instData_eq globals, Ctx.instData_eq globals, found, found']
      cases ty' <;> simp only [Ctx.constBytes, same]
    cases alike with
    | integer | float | zeroInit =>
      exact agree_of_const globals found found' rfl rfl rfl (sameBytes rfl)
    | @aggregate value value' each =>
      have bytes : ∀ ty, Ctx.constBytes (X.instData F) ty x =
        Ctx.constBytes (X.instData F) ty y := by
        intro ty'
        have isX := found
        have isY := found'
        rw [← Ctx.instData_eq globals] at isX isY
        cases ty' with
        | array base len => simp only [Ctx.constBytes, isX, isY, agree_bytes each]
        | _ => simp only [Ctx.constBytes, isX, isY]
      exact agree_of_const globals found found' rfl rfl (by simp only [Ctx.constVal, bytes]) bytes
    | binary op left right =>
      refine agree_of_value globals found found' wellFormed ssa place constants rfl rfl
        fun known known' => ?_
      simp only [InstKind.instUsage, List.forall_mem_cons] at known known'
      simp only [Ctx.pureVal, left.operand known.1 known'.1, right.operand known.2.1 known'.2.1]
    | @swapped op lhs rhs lhs' rhs' operandTy isTy commutes left right =>
      refine agree_of_value globals found found' wellFormed ssa place constants rfl rfl
        fun known known' => ?_
      simp only [InstKind.instUsage, List.forall_mem_cons] at known known'
      obtain ⟨-, isData⟩ := insts_of_instData constants found rfl
      obtain ⟨operand, isL, isR, -⟩ := typed.binary isData
      cases isTy.symm.trans isL
      simp only [Ctx.pureVal, left.operand known.1 known'.2.1, right.operand known.2.1 known'.1]
      cases valueL : X.operand F a.env rhs' with
      | none => cases X.operand F a.env lhs' <;> rfl
      | some u =>
        cases valueR : X.operand F a.env lhs' with
        | none => rfl
        | some v =>
          exact binaryVal_comm floatsCommute commutes
            (shaped.operand types wellFormed globals valueL (left.ty ▸ isL))
            (shaped.operand types wellFormed globals valueR (right.ty ▸ isR)) ty
    | @cast src src' same =>
      refine agree_of_value globals found found' wellFormed ssa place constants rfl rfl
        fun known known' => ?_
      simp only [InstKind.instUsage, List.forall_mem_cons] at known known'
      simp only [Ctx.pureVal, same.operand known.1 known'.1]
    | @getElemPtr base base' offsets offsets' same each =>
      refine agree_of_value globals found found' wellFormed ssa place constants rfl rfl
        fun known known' => ?_
      simp only [InstKind.instUsage, List.forall_mem_cons] at known known'
      have sameTy : (X.instData F base).map InstData.ty =
        (X.instData F base').map InstData.ty := by
        rw [Ctx.instData_eq globals, Ctx.instData_eq globals]
        exact same.ty
      simp only [Ctx.pureVal, same.operand known.1 known'.1, agree_operands each known.2 known'.2]
      cases isBase : X.instData F base with
      | none =>
        rw [isBase, Option.map_none, eq_comm, Option.map_eq_none_iff] at sameTy
        rw [sameTy]
      | some data =>
        rw [isBase, Option.map_some, eq_comm, Option.map_eq_some_iff] at sameTy
        obtain ⟨data', isBase', isTy⟩ := sameTy
        simp only [isBase', Option.bind_eq_bind, Option.bind_some, isTy]

end Values

end AnonCompiler.Opt.InstEquiv
