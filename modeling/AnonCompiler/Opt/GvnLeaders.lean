import AnonCompiler.Opt.GvnWalk

/-!
# What the walk knows of its leaders

An invariant of the walk, kept by every visit of a value and every turn.  An entry
of a table belongs to one of the open scopes, so it was made in a block above the
current one; since it was made the walk has visited nothing that would have
invalidated it.  Every replacement is justified by the entry it was made from
(`Justified`).
-/

set_option autoImplicit false

namespace AnonCompiler.Opt.Gvn

open Ir Lib DomTree

/-! ## Entries and open scopes -/

/-- Every entry belongs to an open scope, and `ok` holds of the block the scope
belongs to. -/
def Scoped.Placed {κ β : Type} (L : Scoped κ β) (path : List Nat)
    (ok : κ → Nat → β → Prop) : Prop :=
  ∀ key entry, L.leaders key = some entry → ∃ (k : Nat) (scope : List κ) (id : Nat),
    L.scopes[k]? = some scope ∧ key ∈ scope ∧ path[k]? = some id ∧ ok key id entry

namespace Scoped.Placed

variable {κ β : Type} {L L' : Scoped κ β} {path : List Nat} {ok ok' : κ → Nat → β → Prop}

theorem init : (Scoped.init : Scoped κ β).Placed path ok := fun _ _ found => by cases found

theorem mono (h : L.Placed path ok) (weaker : ∀ key id entry, ok key id entry → ok' key id entry) :
    L.Placed path ok' := by
  intro key entry found
  obtain ⟨k, scope, id, isScope, member, isId, isOk⟩ := h key entry found
  exact ⟨k, scope, id, isScope, member, isId, weaker key id entry isOk⟩

theorem enterScope (h : L.Placed path ok) (id : Nat) : L.enterScope.Placed (id :: path) ok := by
  intro key entry found
  obtain ⟨k, scope, id', isScope, member, isId, isOk⟩ := h key entry found
  exact ⟨k + 1, scope, id', by simpa [Scoped.enterScope] using isScope, member,
    by simpa using isId, isOk⟩

theorem exitScope [DecidableEq κ] (h : L.Placed path ok) (exited : L.exitScope = some L') :
    L'.Placed path.tail ok := by
  unfold Scoped.exitScope at exited
  split at exited
  · cases exited
  · next top scopes isScopes =>
      obtain rfl := Option.some.inj exited
      intro key entry found
      dsimp only at found
      split at found
      · cases found
      · next outside =>
          obtain ⟨k, scope, id, isScope, member, isId, isOk⟩ := h key entry found
          rw [isScopes] at isScope
          cases k with
          | zero =>
            obtain rfl := Option.some.inj isScope
            exact absurd member outside
          | succ k =>
            refine ⟨k, scope, id, by simpa using isScope, member, ?_, isOk⟩
            rw [List.getElem?_tail]
            exact isId

theorem insert [DecidableEq κ] (h : L.Placed path ok) {key : κ} {leader : β} {id : Nat}
    (isTop : path[0]? = some id) (isOk : ok key id leader)
    (inserted : L.insert key leader = some L') : L'.Placed path ok := by
  unfold Scoped.insert at inserted
  split at inserted
  · cases inserted
  · next top scopes isScopes =>
      obtain rfl := Option.some.inj inserted
      intro key' entry found
      dsimp only at found
      by_cases same : key' = key
      · subst same
        rw [Function.update_self] at found
        obtain rfl := Option.some.inj found
        exact ⟨0, key' :: top, id, rfl, List.mem_cons_self .., isTop, isOk⟩
      · rw [Function.update_of_ne same] at found
        obtain ⟨k, scope, id', isScope, member, isId, isOk'⟩ := h key' entry found
        rw [isScopes] at isScope
        cases k with
        | zero =>
          obtain rfl := Option.some.inj isScope
          exact ⟨0, key :: top, id', rfl, List.mem_cons_of_mem _ member, isId, isOk'⟩
        | succ k => exact ⟨k + 1, scope, id', by simpa using isScope, member, isId, isOk'⟩

/-- The entries that stay have not matched. -/
theorem invalidateMatching (h : L.Placed path ok) (matching : β → Bool) :
    (L.invalidateMatching matching).Placed path fun key id entry =>
      ok key id entry ∧ matching entry = false := by
  intro key entry found
  obtain ⟨found, unmatched⟩ := Option.filter_eq_some_iff.mp found
  obtain ⟨k, scope, id, isScope, member, isId, isOk⟩ := h key entry found
  exact ⟨k, scope, id, isScope, member, isId, isOk, by simpa using unmatched⟩

end Scoped.Placed

/-! ## The numbers of calls -/

/-- Keys have numbers of their own, and the number of an eliminable call is that of a
key for a call of the same function. -/
structure ValueNumbering.Ok (P : Program) (F : FunctionData) (N : ValueNumbering) : Prop where
  bounded : ∀ {key n}, N.byKey.lookup key = some n → n < N.next
  injective : ∀ {key key' n}, N.byKey.lookup key = some n →
    N.byKey.lookup key' = some n → key = key'
  calls : ∀ {value numbered callee}, N.byInst value = some numbered → numbered.eliminable = true →
    (kindIn P F value).map shape = some (.call callee) →
      ∃ ty args, N.byKey.lookup (.call callee ty args) = some numbered.number

/-- Keys keep their numbers. -/
def ValueNumbering.Extends (N N' : ValueNumbering) : Prop :=
  ∀ {key n}, N.byKey.lookup key = some n → N'.byKey.lookup key = some n

namespace ValueNumbering

variable {P : Program} {A : EffectAnalysis} {F data : FunctionData} {N N' : ValueNumbering}
  {value : Inst} {numbered : NumberedValue}

variable {key : ValueKey} {eliminable : Bool}

theorem Ok.init : (ValueNumbering.init).Ok P F where
  bounded := fun found => by cases found
  injective := fun found => by cases found
  calls := fun found => by cases found

theorem Ok.intern (ok : N.Ok P F)
    (isCall : eliminable = true → ∀ callee, (kindIn P F value).map shape = some (.call callee) →
    ∃ ty args, key = .call callee ty args)
    (interned : N.intern value key eliminable = (numbered, N')) : N'.Ok P F ∧ N.Extends N' := by
  unfold ValueNumbering.intern at interned
  split at interned
  · next number found =>
      obtain ⟨rfl, rfl⟩ := Prod.mk.inj interned
      refine ⟨⟨ok.bounded, ok.injective, ?_⟩, fun found => found⟩
      intro other numbered callee isNumbered eliminable isShape
      dsimp only at isNumbered ⊢
      by_cases same : other = value
      · subst same
        rw [Function.update_self] at isNumbered
        obtain rfl := Option.some.inj isNumbered
        obtain ⟨ty, args, rfl⟩ := isCall eliminable callee isShape
        exact ⟨ty, args, found⟩
      · rw [Function.update_of_ne same] at isNumbered
        exact ok.calls isNumbered eliminable isShape
  · next unknown =>
      obtain ⟨rfl, rfl⟩ := Prod.mk.inj interned
      have new : ∀ {key' n}, ((key, N.next) :: N.byKey).lookup key' = some n →
          key' = key ∧ n = N.next ∨ N.byKey.lookup key' = some n := by
        intro key' n found
        rw [List.lookup_cons] at found
        by_cases same : key' = key
        · subst same
          rw [beq_self_eq_true] at found
          exact .inl ⟨rfl, (Option.some.inj found).symm⟩
        · rw [beq_false_of_ne same] at found
          exact .inr found
      have old : N.Extends ⟨N.next + 1, Function.update N.byInst value (some ⟨N.next, eliminable⟩),
          (key, N.next) :: N.byKey⟩ := by
        intro key' n found
        have differ : key' ≠ key := by
          rintro rfl
          rw [unknown] at found
          cases found
        show List.lookup key' ((key, N.next) :: N.byKey) = some n
        rw [List.lookup_cons, beq_false_of_ne differ]
        exact found
      refine ⟨⟨?_, ?_, ?_⟩, old⟩
      · intro key' n found
        rcases new found with ⟨-, rfl⟩ | found
        · exact Nat.lt_succ_self _
        · exact Nat.lt_succ_of_lt (ok.bounded found)
      · intro key₁ key₂ n found₁ found₂
        rcases new found₁ with ⟨rfl, rfl⟩ | known₁ <;> rcases new found₂ with ⟨rfl, same⟩ | known₂
        · rfl
        · exact absurd (ok.bounded known₂) (lt_irrefl _)
        · subst same
          exact absurd (ok.bounded known₁) (lt_irrefl _)
        · exact ok.injective known₁ known₂
      · intro other numbered callee isNumbered eliminable isShape
        dsimp only at isNumbered
        by_cases same : other = value
        · subst same
          rw [Function.update_self] at isNumbered
          obtain rfl := Option.some.inj isNumbered
          obtain ⟨ty, args, rfl⟩ := isCall eliminable callee isShape
          exact ⟨ty, args, by rw [List.lookup_cons, beq_self_eq_true]⟩
        · rw [Function.update_of_ne same] at isNumbered
          obtain ⟨ty, args, found⟩ := ok.calls isNumbered eliminable isShape
          exact ⟨ty, args, old found⟩

/-- What holds after numbering a value if it held before. -/
structure Advances (P : Program) (F : FunctionData) (N N' : ValueNumbering) : Prop where
  ok : N.Ok P F → N'.Ok P F
  keys : N.Ok P F → N.Extends N'

theorem Advances.refl (N : ValueNumbering) : Advances P F N N :=
  ⟨fun ok => ok, fun _ _ _ found => found⟩

theorem Advances.trans {N₁ : ValueNumbering} (first : Advances P F N N₁)
    (second : Advances P F N₁ N') : Advances P F N N' :=
  ⟨fun ok => second.ok (first.ok ok), fun ok _ _ found =>
    second.keys (first.ok ok) (first.keys ok found)⟩

/-- The number a value gets is recorded, and a call is given a key for its callee. -/
theorem intern_advances
    (isCall : eliminable = true → ∀ callee, (kindIn P F value).map shape = some (.call callee) →
    ∃ ty args, key = .call callee ty args)
    (interned : some (N.intern value key eliminable) = some (numbered, N')) :
    Advances P F N N' ∧ N'.byInst value = some numbered := by
  have interned := Option.some.inj interned
  refine ⟨⟨fun ok => (ok.intern isCall interned).1, fun ok => (ok.intern isCall interned).2⟩, ?_⟩
  unfold ValueNumbering.intern at interned
  split at interned
  all_goals
    obtain ⟨rfl, rfl⟩ := Prod.mk.inj interned
    exact Function.update_self ..

mutual

theorem number_advances (kept : Kept F data) : ∀ (fuel : Nat) {N N' : ValueNumbering}
    {value numbered}, number P A data fuel N value = some (numbered, N') →
      Advances P F N N' ∧ N'.byInst value = some numbered
  | 0, _, _, _, _, isNumber => by cases isNumber
  | fuel + 1, N, N', value, numbered, isNumber => by
      rw [number] at isNumber
      split at isNumber
      · next known found =>
          obtain ⟨rfl, rfl⟩ := Prod.mk.inj (Option.some.inj isNumber)
          exact ⟨.refl N, found⟩
      · split at isNumber
        · cases isNumber
        · next ty kind found =>
            have isShape : (kindIn P F value).map shape = some (shape kind) := by
              rw [← kept.shape_kindIn, kindIn, found]
              rfl
            have intern : ∀ {N₁ : ValueNumbering} {key : ValueKey} {eliminable : Bool},
                Advances P F N N₁ → (eliminable = true → ∀ callee, shape kind = .call callee →
                  ∃ ty args, key = .call callee ty args) →
                some (N₁.intern value key eliminable) = some (numbered, N') →
                  Advances P F N N' ∧ N'.byInst value = some numbered := by
              intro N₁ key eliminable advances isCall interned
              obtain ⟨later, isValue⟩ := intern_advances (fun isEliminable callee isCallee =>
                isCall isEliminable callee (Option.some.inj (isShape.symm.trans isCallee))) interned
              exact ⟨advances.trans later, isValue⟩
            cases kind with
            | integer | float => exact intern (.refl N) (fun _ _ isCall => by cases isCall) isNumber
            | binary op lhs rhs =>
              simp only [Option.bind_eq_bind, Option.bind_eq_some_iff, Prod.exists] at isNumber
              obtain ⟨_, -, _, N₁, first, _, N₂, second, interned⟩ := isNumber
              have advances :=
                (number_advances kept fuel first).1.trans (number_advances kept fuel second).1
              exact intern advances (fun _ _ isCall => by cases isCall) interned
            | cast src =>
              simp only [Option.bind_eq_bind, Option.bind_eq_some_iff, Prod.exists] at isNumber
              obtain ⟨_, -, _, N₁, first, interned⟩ := isNumber
              exact intern (number_advances kept fuel first).1
                (fun _ _ isCall => by cases isCall) interned
            | select cond ifTrue ifFalse =>
              simp only [Option.bind_eq_bind, Option.bind_eq_some_iff, Prod.exists] at isNumber
              obtain ⟨_, N₁, first, _, N₂, second, _, N₃, third, interned⟩ := isNumber
              have advances := ((number_advances kept fuel first).1.trans
                (number_advances kept fuel second).1).trans (number_advances kept fuel third).1
              exact intern advances (fun _ _ isCall => by cases isCall) interned
            | getElemPtr base offsets =>
              simp only [Option.bind_eq_bind, Option.bind_eq_some_iff, Prod.exists] at isNumber
              obtain ⟨_, -, _, N₁, first, _, N₂, second, interned⟩ := isNumber
              have advances :=
                (number_advances kept fuel first).1.trans (numberAll_advances kept fuel second)
              exact intern advances (fun _ _ isCall => by cases isCall) interned
            | call callee args =>
              dsimp only at isNumber
              split at isNumber
              · simp only [Option.bind_eq_bind, Option.bind_eq_some_iff, Prod.exists] at isNumber
                obtain ⟨numbers, N₁, first, interned⟩ := isNumber
                refine intern (numberAll_advances kept fuel first) ?_ interned
                rintro - callee' isCall
                cases isCall
                exact ⟨ty, numbers, rfl⟩
              · exact intern (.refl N) (fun isEliminable => by cases isEliminable) isNumber
            | _ => exact intern (.refl N) (fun isEliminable => by cases isEliminable) isNumber

theorem numberAll_advances (kept : Kept F data) : ∀ (fuel : Nat) {N N' : ValueNumbering}
    {values numbers}, numberAll P A data fuel N values = some (numbers, N') → Advances P F N N'
  | 0, _, _, _, _, isNumbers => by cases isNumbers
  | fuel + 1, N, N', [], numbers, isNumbers => by
      rw [numberAll] at isNumbers
      obtain ⟨-, rfl⟩ := Prod.mk.inj (Option.some.inj isNumbers)
      exact .refl N
  | fuel + 1, N, N', value :: values, numbers, isNumbers => by
      rw [numberAll] at isNumbers
      simp only [Option.bind_eq_bind, Option.bind_eq_some_iff, Prod.exists] at isNumbers
      obtain ⟨_, N₁, first, _, N₂, rest, same⟩ := isNumbers
      obtain ⟨-, rfl⟩ := Prod.mk.inj (Option.some.inj same)
      exact (number_advances kept fuel first).1.trans (numberAll_advances kept fuel rest)

end

end ValueNumbering

/-! ## Leaders and replacements -/

/-- The values of a list of visits. -/
abbrev visited (seen : List (Inst × InstKind)) : List Inst := seen.map Prod.fst

/-- The leader has been visited in block `id`, and no value that hits it since. -/
def Leads (cfg : Cfg) (F : FunctionData) (seen : List (Inst × InstKind)) (hits : InstKind → Bool)
    (id : Nat) (leader : Inst) : Prop :=
  ∃ recent kind older, seen = recent ++ (leader, kind) :: older ∧ (∀ x ∈ recent, hits x.2 = false) ∧
    Precedes cfg F id leader (visited older)

variable {cfg : Cfg} {F : FunctionData} {seen : List (Inst × InstKind)} {hits : InstKind → Bool}
  {id : Nat} {leader x : Inst} {kind : InstKind}

theorem Leads.push (h : Leads cfg F seen hits id leader) (x : Inst × InstKind)
    (missed : hits x.2 = false) : Leads cfg F (x :: seen) hits id leader := by
  obtain ⟨recent, kind, older, rfl, unhit, precedes⟩ := h
  exact ⟨x :: recent, kind, older, rfl, List.forall_mem_cons.mpr ⟨missed, unhit⟩, precedes⟩

theorem Leads.weaken {hits' : InstKind → Bool} (h : Leads cfg F seen hits id leader)
    (weaker : ∀ kind, hits kind = false → hits' kind = false) :
    Leads cfg F seen hits' id leader := by
  obtain ⟨recent, kind, older, isSeen, unhit, precedes⟩ := h
  exact ⟨recent, kind, older, isSeen, fun x member => weaker _ (unhit x member), precedes⟩

/-- No value visited before the leader lies on a path from the leader to the value,
and none visited after it hits it. -/
def Justified (F : FunctionData) (hits : InstKind → Bool) (r : Replacement) : Prop :=
  ∃ recent kind older, r.seen = recent ++ (r.leader, kind) :: older ∧
    (∀ x ∈ recent, hits x.2 = false) ∧ ∀ x ∈ older, ¬ Between F r.leader r.value x.1

theorem Justified.missed {r : Replacement} (h : Justified F hits r)
    (between : Between F r.leader r.value x) (seen : (x, kind) ∈ r.seen) : hits kind = false := by
  obtain ⟨recent, kind', older, isSeen, unhit, before⟩ := h
  rw [isSeen] at seen
  rcases List.mem_append.mp seen with late | early
  · exact unhit _ late
  · rcases List.mem_cons.mp early with same | early
    · cases same
      obtain ⟨z, -, last⟩ := Relation.TransGen.tail'_iff.mp between.1
      exact absurd rfl last.2
    · exact absurd between (before _ early)

/-- The instruction writes memory, as far as loads are concerned. -/
def writes (A : EffectAnalysis) : InstKind → Bool
  | .store .. | .memZero .. => true
  | .call callee _ => (A.effects callee).mayWriteMemory
  | _ => false

/-- The walk drops the leaders that call `callee` when it comes to the
instruction. -/
def drops (P : Program) (A : EffectAnalysis) (func : Function) (F : FunctionData)
    (callee : Function) : InstKind → Bool
  | .store _ dest | .memZero dest _ => mayRead P A func F dest callee
  | .call sibling _ => hasConflict A func sibling && conflicts A func sibling callee
  | _ => false

/-! ## Visiting a value -/

theorem Flows.target_laidOut {y : Inst} (h : Flows F x y) : y ∈ F.layoutInsts := by
  obtain ⟨bb, insts, block, ⟨done, rest, rfl⟩ | ⟨-, e, -, rest, target⟩⟩ := h
  · exact FunctionData.mem_layoutInsts block (by simp)
  · exact FunctionData.mem_layoutInsts target (List.mem_cons_self ..)

/-- Where the walk is when it visits a value: in block `id`, below the blocks whose
scopes are open. -/
structure Here (cfg : Cfg) (F : FunctionData) (path : List Nat) (older : List Inst) (id : Nat)
    (value : Inst) : Prop where
  top : path[0]? = some id
  above : ∀ other ∈ path, Above cfg.parent other id
  place : value ∈ valuesOf cfg F id
  next : ∃ rest, visitOrder cfg F = older.reverse ++ value :: rest
  fresh : value ∉ older
  precedes : value ∈ F.layoutInsts → Precedes cfg F id value older

/-- A leader that has not been hit justifies a replacement by it. -/
theorem Leads.justified {here : Nat} {value : Inst} {path : List Nat} (wellFormed : F.WellFormed)
    (describes : cfg.Describes F) (leads : Leads cfg F ((value, kind) :: seen) hits id leader)
    (differ : value ≠ leader) (isOpen : id ∈ path)
    (atValue : Here cfg F path (visited seen) here value) :
    Justified F hits ⟨value, leader, seen⟩ := by
  obtain ⟨recent, kind', older, isSeen, unhit, precedes⟩ := leads
  cases recent with
  | nil =>
    cases isSeen
    exact absurd rfl differ
  | cons first recent =>
    rw [List.cons_append] at isSeen
    obtain ⟨rfl, rfl⟩ := List.cons.inj isSeen
    refine ⟨recent, kind', older, rfl, fun x later => unhit x (List.mem_cons_of_mem _ later), ?_⟩
    intro x isOlder between
    obtain ⟨bb, isBlock, inBlock⟩ := mem_valuesOf.mp atValue.place
    have laidOut : value ∈ F.layoutInsts := by
      obtain ⟨z, -, last⟩ := Relation.TransGen.tail'_iff.mp between.2
      exact last.1.target_laidOut
    obtain ⟨insts, block, member⟩ :=
      (mem_values inBlock).resolve_left (wellFormed.not_param laidOut bb)
    have fresh : value ∉ visited older := by
      intro again
      refine atValue.fresh ?_
      simp only [visited, List.map_append, List.map_cons, List.mem_append, List.mem_cons]
      exact .inr (.inr again)
    exact precedes.not_between wellFormed describes isBlock block member
      (atValue.above id isOpen) fresh
      (List.mem_map_of_mem isOlder) between

section Visit

variable {P : Program} {A : EffectAnalysis} {func : Function} {cfg : Cfg} {F : FunctionData}

/-- A leader of a load whose count is that of the counter has not been hit by a
writer. -/
def LoadsOk (A : EffectAnalysis) (cfg : Cfg) (F : FunctionData) (seen : List (Inst × InstKind))
    (w : Walk) : Prop :=
  w.loadLeaders.Placed w.trace.path fun _ id entry => entry.2 ≤ w.storeCounter ∧
    Leads cfg F seen (fun kind => entry.2 == w.storeCounter && writes A kind) id entry.1

/-- A leader of a call stands under the number of a call of its callee, and has not
been hit. -/
def CallsOk (P : Program) (A : EffectAnalysis) (func : Function) (cfg : Cfg) (F : FunctionData)
    (seen : List (Inst × InstKind)) (w : Walk) : Prop :=
  w.callLeaders.Placed w.trace.path fun number id entry =>
    Leads cfg F seen (drops P A func F entry.2) id entry.1 ∧
      ∃ ty args, w.numbers.byKey.lookup (.call entry.2 ty args) = some number

/-- What the tables say of the values visited. -/
structure Tables (P : Program) (A : EffectAnalysis) (func : Function) (cfg : Cfg) (F : FunctionData)
    (seen : List (Inst × InstKind)) (w : Walk) : Prop where
  kept : Kept F w.data
  shapes : ∀ x ∈ seen, (F.kind x.1).map shape = some (shape x.2)
  numbers : w.numbers.Ok P F
  loads : LoadsOk A cfg F seen w
  calls : CallsOk P A func cfg F seen w

variable {w w' : Walk} {seen : List (Inst × InstKind)} {value : Inst} {path : List Nat} {id : Nat}

/-- The entries that are left after a value was visited have not been hit by it. -/
theorem Tables.invalidate (h : Tables P A func cfg F seen w) {kind : InstKind}
    (isKind : w.data.kind value = some kind) :
    Tables P A func cfg F ((value, kind) :: seen) (invalidate P A func w kind) := by
  have shapes : ∀ x ∈ (value, kind) :: seen, (F.kind x.1).map shape = some (shape x.2) :=
    List.forall_mem_cons.mpr ⟨h.kept.shape_eq isKind, h.shapes⟩
  have unwritten : writes A kind = false → ∀ {w' : Walk}, w'.storeCounter = w.storeCounter →
      w'.loadLeaders = w.loadLeaders → w'.trace = w.trace →
        LoadsOk A cfg F ((value, kind) :: seen) w' := by
    intro missed w' sameCounter sameLeaders sameTrace
    rw [LoadsOk, sameCounter, sameLeaders, sameTrace]
    refine h.loads.mono fun _ id entry ⟨le, leads⟩ => ⟨le, leads.push _ ?_⟩
    simp [missed]
  have moved : ∀ {w' : Walk}, w'.storeCounter = w.storeCounter + 1 →
    w'.loadLeaders = w.loadLeaders →
      w'.trace = w.trace → LoadsOk A cfg F ((value, kind) :: seen) w' := by
    intro w' isCounter sameLeaders sameTrace
    rw [LoadsOk, isCounter, sameLeaders, sameTrace]
    refine h.loads.mono fun _ id entry ⟨le, leads⟩ => ⟨Nat.le_succ_of_le le, ?_⟩
    have stale : (entry.2 == w.storeCounter + 1) = false := beq_false_of_ne (by omega)
    exact (leads.weaken fun _ _ => by simp [stale]).push _ (by simp [stale])
  have dropped : ∀ {w' : Walk} (matching : Inst × Function → Bool),
      w'.callLeaders = w.callLeaders.invalidateMatching matching → w'.numbers = w.numbers →
      w'.trace = w.trace → (∀ entry, drops P A func F entry.2 kind = matching entry) →
        CallsOk P A func cfg F ((value, kind) :: seen) w' := by
    intro w' matching isLeaders sameNumbers sameTrace isDrop
    rw [CallsOk, isLeaders, sameNumbers, sameTrace]
    refine (h.calls.invalidateMatching matching).mono ?_
    rintro number id entry ⟨⟨leads, isKey⟩, unmatched⟩
    exact ⟨leads.push _ ((isDrop entry).trans unmatched), isKey⟩
  have undropped : (∀ callee, drops P A func F callee kind = false) → ∀ {w' : Walk},
      w'.callLeaders = w.callLeaders → w'.numbers = w.numbers → w'.trace = w.trace →
        CallsOk P A func cfg F ((value, kind) :: seen) w' := by
    intro missed w' sameLeaders sameNumbers sameTrace
    rw [CallsOk, sameLeaders, sameNumbers, sameTrace]
    refine h.calls.mono fun number id entry ⟨leads, isKey⟩ => ⟨leads.push _ ?_, isKey⟩
    exact missed entry.2
  cases kind with
  | store _ dest | memZero dest =>
    exact ⟨h.kept, shapes, h.numbers, moved rfl rfl rfl,
      dropped _ rfl rfl rfl fun entry => (h.kept.mayRead P A func dest entry.2).symm⟩
  | call sibling args =>
    unfold Gvn.invalidate
    dsimp only
    by_cases mayWrite : (A.effects sibling).mayWriteMemory = true <;>
      by_cases conflict : hasConflict A func sibling = true
    · rw [if_pos mayWrite, if_pos conflict]
      exact ⟨h.kept, shapes, h.numbers, moved rfl rfl rfl,
        dropped _ rfl rfl rfl fun entry => by simp [drops, conflict]⟩
    · rw [if_pos mayWrite, if_neg conflict]
      exact ⟨h.kept, shapes, h.numbers, moved rfl rfl rfl,
        undropped (fun callee => by simp [drops, conflict]) rfl rfl rfl⟩
    · rw [if_neg mayWrite, if_pos conflict]
      exact ⟨h.kept, shapes, h.numbers, unwritten (Bool.eq_false_iff.mpr mayWrite) rfl rfl rfl,
        dropped _ rfl rfl rfl fun entry => by simp [drops, conflict]⟩
    · rw [if_neg mayWrite, if_neg conflict]
      exact ⟨h.kept, shapes, h.numbers, unwritten (Bool.eq_false_iff.mpr mayWrite) rfl rfl rfl,
        undropped (fun callee => by simp [drops, conflict]) rfl rfl rfl⟩
  | _ => exact ⟨h.kept, shapes, h.numbers, unwritten rfl rfl rfl rfl,
        undropped (fun _ => rfl) rfl rfl rfl⟩

/-- What comes before the value in the order of the dominator tree had been visited
when the replacement was made. -/
structure Recorded (cfg : Cfg) (F : FunctionData) (r : Replacement) : Prop where
  order : ∃ rest, visitOrder cfg F = (visited r.seen).reverse ++ r.value :: rest
  shapes : ∀ x ∈ r.seen, (F.kind x.1).map shape = some (shape x.2)

/-- Every replacement so far is justified. -/
structure Results (P : Program) (A : EffectAnalysis) (func : Function) (cfg : Cfg)
    (F : FunctionData) (trace : Trace) : Prop where
  loads : ∀ r ∈ trace.loads, Justified F (writes A) r
  calls : ∀ r ∈ trace.calls, ∃ callee, (F.kind r.value).map shape = some (.call callee) ∧
    Justified F (drops P A func F callee) r
  loadsRecord : ∀ r ∈ trace.loads, Recorded cfg F r
  callsRecord : ∀ r ∈ trace.calls, Recorded cfg F r

/-- What a visit leaves as it is. -/
structure SameFrame (w w' : Walk) : Prop where
  visits : w'.visits = w.visits
  path : w'.trace.path = w.trace.path
  entered : w'.trace.entered = w.trace.entered
  seen : w'.trace.seen = w.trace.seen

theorem SameFrame.of_trace (visits : w'.visits = w.visits) (trace : w'.trace = w.trace) :
    SameFrame w w' := ⟨visits, by rw [trace], by rw [trace], by rw [trace]⟩

theorem SameFrame.trans {w₁ : Walk} (first : SameFrame w w₁) (second : SameFrame w₁ w') :
    SameFrame w w' :=
  ⟨second.visits.trans first.visits, second.path.trans first.path,
    second.entered.trans first.entered, second.seen.trans first.seen⟩

theorem invalidate_frame (P : Program) (A : EffectAnalysis) (func : Function) (w : Walk)
    (kind : InstKind) :
    (invalidate P A func w kind).visits = w.visits ∧
      (invalidate P A func w kind).trace = w.trace := by
  cases kind with
  | call sibling args =>
    unfold Gvn.invalidate
    dsimp only
    split <;> split <;> exact ⟨rfl, rfl⟩
  | _ => exact ⟨rfl, rfl⟩

theorem Tables.number {fuel : Nat} {numbered : NumberedValue} (h : Tables P A func cfg F seen w)
    (isNumber : numberValue P A fuel w value = some (numbered, w')) :
    Tables P A func cfg F seen w' ∧ w'.numbers.byInst value = some numbered ∧ w'.visits = w.visits ∧
      w'.trace = w.trace := by
  obtain ⟨⟨numbered', N'⟩, isNumber', same⟩ := Option.map_eq_some_iff.mp isNumber
  obtain ⟨rfl, rfl⟩ := Prod.mk.inj same
  obtain ⟨advances, isValue⟩ := ValueNumbering.number_advances h.kept fuel isNumber'
  refine ⟨⟨h.kept, h.shapes, advances.ok h.numbers, h.loads, ?_⟩, isValue, rfl, rfl⟩
  refine h.calls.mono fun number id entry ⟨leads, ty, args, isKey⟩ => ⟨leads, ty, args, ?_⟩
  exact advances.keys h.numbers isKey

/-- An instruction with the shape of a load or a call is no parameter. -/
theorem Here.laidOut {older : List Inst} {isShape : Shape} (wellFormed : F.WellFormed)
    (atValue : Here cfg F path older id value) (hasShape : (F.kind value).map shape = some isShape)
    (noParam : isShape ≠ .blockArgRef) : value ∈ F.layoutInsts := by
  obtain ⟨bb, -, inBlock⟩ := mem_valuesOf.mp atValue.place
  rcases mem_values inBlock with isParam | ⟨insts, block, member⟩
  · obtain ⟨data, index, found, isRef⟩ := wellFormed.blockParam isParam
    rw [FunctionData.kind, found, Option.map_some, isRef] at hasShape
    exact absurd (Option.some.inj hasShape).symm noParam
  · exact FunctionData.mem_layoutInsts block member

theorem Here.leads (atValue : Here cfg F path (visited seen) id value)
    (laidOut : value ∈ F.layoutInsts) (kind : InstKind) (hits : InstKind → Bool) :
    Leads cfg F ((value, kind) :: seen) hits id value :=
  ⟨[], kind, seen, rfl, List.forall_mem_nil _, atValue.precedes laidOut⟩

section Replace

variable {w w' : Walk} {seen : List (Inst × InstKind)} {id : Nat} {value : Inst}

variable {kind : InstKind}

section

variable (wellFormed : F.WellFormed) (describes : cfg.Describes F)
include wellFormed describes

theorem visitLoad_spec {addr : Inst}
    (tables : Tables P A func cfg F ((value, .load addr) :: w.trace.seen) w)
    (results : Results P A func cfg F w.trace)
    (atValue : Here cfg F w.trace.path (visited w.trace.seen) id value)
    (isKind : w.data.kind value = some (.load addr)) (visit : visitLoad P w value addr = some w') :
    Tables P A func cfg F ((value, .load addr) :: w.trace.seen) w' ∧
      Results P A func cfg F w'.trace ∧ SameFrame w w' := by
  have laidOut := atValue.laidOut wellFormed (tables.kept.shape_eq isKind) fun same => by cases same
  have record : ∀ leader, Recorded cfg F ⟨value, leader, w.trace.seen⟩ := fun _ =>
    ⟨atValue.next, (List.forall_mem_cons.mp tables.shapes).2⟩
  unfold visitLoad at visit
  split at visit
  · next leader found =>
      split at visit
      · next replaces =>
          obtain rfl := Option.some.inj visit
          obtain ⟨⟨leader', count⟩, filtered, rfl⟩ := Option.map_eq_some_iff.mp found
          obtain ⟨isEntry, current⟩ := Option.filter_eq_some_iff.mp filtered
          obtain ⟨k, scope, other, -, -, isOpen, -, leads⟩ := tables.loads _ _ isEntry
          have differ : value ≠ leader' := of_decide_eq_true (Bool.and_eq_true_iff.mp replaces).1
          refine ⟨⟨tables.kept.replace P _ _, tables.shapes, tables.numbers, tables.loads,
            tables.calls⟩, ⟨?_, results.calls,
            List.forall_mem_cons.mpr ⟨record _, results.loadsRecord⟩, results.callsRecord⟩,
            ⟨rfl, rfl, rfl, rfl⟩⟩
          intro r member
          rcases List.mem_cons.mp member with rfl | earlier
          · have isCurrent : (count == w.storeCounter) = true := by simpa using current
            have same : (fun kind => count == w.storeCounter && writes A kind) = writes A := by
              funext kind
              rw [isCurrent, Bool.true_and]
            rw [same] at leads
            exact leads.justified wellFormed describes differ (List.mem_of_getElem? isOpen) atValue
          · exact results.loads r earlier
      · obtain rfl := Option.some.inj visit
        exact ⟨tables, results, .of_trace rfl rfl⟩
  · obtain ⟨leaders, inserted, rfl⟩ := Option.map_eq_some_iff.mp visit
    refine ⟨⟨tables.kept, tables.shapes, tables.numbers, ?_, tables.calls⟩, results,
      .of_trace rfl rfl⟩
    exact tables.loads.insert atValue.top ⟨le_refl _, atValue.leads laidOut _ _⟩ inserted

theorem visitNumbered_spec {numbered : NumberedValue}
    (tables : Tables P A func cfg F ((value, kind) :: w.trace.seen) w)
    (results : Results P A func cfg F w.trace)
    (atValue : Here cfg F w.trace.path (visited w.trace.seen) id value)
    (hasShape : (F.kind value).map shape = some (shape kind))
    (isNumbered : w.numbers.byInst value = some numbered) (eliminable : numbered.eliminable = true)
    (visit : visitNumbered P w value kind numbered.number = some w') :
    Tables P A func cfg F ((value, kind) :: w.trace.seen) w' ∧ Results P A func cfg F w'.trace ∧
      SameFrame w w' := by
  unfold visitNumbered at visit
  split at visit
  · next callee args =>
      have laidOut := atValue.laidOut wellFormed hasShape fun same => by cases same
      have record : ∀ leader, Recorded cfg F ⟨value, leader, w.trace.seen⟩ := fun _ =>
        ⟨atValue.next, (List.forall_mem_cons.mp tables.shapes).2⟩
      obtain ⟨data, found, -⟩ := wellFormed.laidOut laidOut
      have isShape : (kindIn P F value).map shape = some (.call callee) := by
        rw [FunctionData.kind, found] at hasShape
        rw [kindIn, wellFormed.instData_eq found]
        exact hasShape
      obtain ⟨ty, numbers, isKey⟩ := tables.numbers.calls isNumbered eliminable isShape
      split at visit
      · next leader callee' isEntry =>
          obtain ⟨k, scope, other, -, -, isOpen, leads, ty', numbers', isKey'⟩ :=
            tables.calls _ _ isEntry
          cases tables.numbers.injective isKey isKey'
          split at visit
          · split at visit
            · next replaces =>
                obtain rfl := Option.some.inj visit
                have differ : value ≠ leader :=
                  of_decide_eq_true (Bool.and_eq_true_iff.mp replaces).1
                refine ⟨⟨tables.kept.replace P _ _, tables.shapes, tables.numbers, tables.loads,
                  tables.calls⟩, ⟨results.loads, ?_, results.loadsRecord,
                    List.forall_mem_cons.mpr ⟨record _, results.callsRecord⟩⟩, ⟨rfl, rfl, rfl, rfl⟩⟩
                intro r member
                rcases List.mem_cons.mp member with rfl | earlier
                · exact ⟨_, hasShape, leads.justified wellFormed describes differ
                      (List.mem_of_getElem? isOpen) atValue⟩
                · exact results.calls r earlier
            · obtain rfl := Option.some.inj visit
              exact ⟨tables, results, .of_trace rfl rfl⟩
          · cases visit
      · obtain ⟨leaders, inserted, rfl⟩ := Option.map_eq_some_iff.mp visit
        refine ⟨⟨tables.kept, tables.shapes, tables.numbers, tables.loads, ?_⟩, results,
          .of_trace rfl rfl⟩
        exact tables.calls.insert atValue.top
          ⟨atValue.leads laidOut _ _, ty, numbers, isKey⟩ inserted
  · split at visit
    · split at visit
      · split at visit
        · obtain rfl := Option.some.inj visit
          exact ⟨⟨tables.kept.replace P _ _, tables.shapes, tables.numbers, tables.loads,
            tables.calls⟩, results, .of_trace rfl rfl⟩
        · obtain rfl := Option.some.inj visit
          exact ⟨tables, results, .of_trace rfl rfl⟩
      · cases visit
    · obtain ⟨leaders, -, rfl⟩ := Option.map_eq_some_iff.mp visit
      exact ⟨⟨tables.kept, tables.shapes, tables.numbers, tables.loads, tables.calls⟩, results,
        .of_trace rfl rfl⟩

/-- Visiting a value keeps what is known of the leaders, and the replacement it makes
is justified. -/
theorem visitKind_spec {fuel : Nat} (tables : Tables P A func cfg F w.trace.seen w)
    (results : Results P A func cfg F w.trace)
    (atValue : Here cfg F w.trace.path (visited w.trace.seen) id value)
    (isKind : w.data.kind value = some kind)
    (visit : visitKind P A func fuel w value kind = some w') :
    Tables P A func cfg F ((value, kind) :: w.trace.seen) w' ∧ Results P A func cfg F w'.trace ∧
      SameFrame w w' := by
  have entered := tables.invalidate isKind
  unfold visitKind at visit
  split at visit
  · next addr =>
      obtain ⟨w₁, visited, visit⟩ := Option.bind_eq_some_iff.mp visit
      obtain ⟨⟨numbered, w₂⟩, isNumber, rfl⟩ := Option.map_eq_some_iff.mp visit
      obtain ⟨tables₁, results₁, frame₁⟩ :=
        visitLoad_spec wellFormed describes entered results atValue isKind visited
      obtain ⟨tables₂, -, sameVisits, sameTrace⟩ := tables₁.number isNumber
      exact ⟨tables₂, by rw [sameTrace]; exact results₁,
        frame₁.trans (.of_trace sameVisits sameTrace)⟩
  · obtain ⟨⟨numbered, w₂⟩, isNumber, visit⟩ := Option.bind_eq_some_iff.mp visit
    obtain ⟨visits₁, trace₁⟩ := invalidate_frame P A func w kind
    obtain ⟨tables₂, isNumbered, visits₂, trace₂⟩ := entered.number isNumber
    have sameTrace : w₂.trace = w.trace := trace₂.trans trace₁
    have frame : SameFrame w w₂ := .of_trace (visits₂.trans visits₁) sameTrace
    rw [← sameTrace] at results atValue tables₂ ⊢
    dsimp only at visit
    split at visit
    · next eliminable =>
        obtain ⟨tables₃, results₃, frame₃⟩ :=
          visitNumbered_spec wellFormed describes tables₂ results atValue
          (tables.kept.shape_eq isKind) isNumbered eliminable visit
        exact ⟨tables₃, results₃, frame.trans frame₃⟩
    · obtain rfl := Option.some.inj visit
      exact ⟨tables₂, results, frame⟩

end

end Replace

end Visit

end AnonCompiler.Opt.Gvn
