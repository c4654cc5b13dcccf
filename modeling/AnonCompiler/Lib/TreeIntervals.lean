import AnonCompiler.Lib.DepthFirst
import AnonCompiler.Lib.Enumeration

/-!
# Ancestors by the times of a walk

A walk down a tree notes for every node the time at which it enters and the time at
which it leaves it.  The times of a node enclose those of the nodes below it, and
the times of two children of a node do not overlap, so a node lies below another
exactly when its times lie inside (`Spans.nested_iff`).
-/

set_option autoImplicit false

namespace AnonCompiler.Lib.TreeIntervals

open DepthFirst (Visit)

variable {α : Type} [DecidableEq α]

structure Clock (α : Type) where
  time : Nat
  enterAt : α → Option Nat
  leaveAt : α → Option Nat
  stack : List (Visit α)

/-- One turn of the walk. -/
inductive Tick (children : α → List α) : Clock α → Clock α → Prop
  | enter {time : Nat} {i o : α → Option Nat} {v : α} {rest : List (Visit α)} :
      Tick children ⟨time, i, o, .enter v :: rest⟩
        ⟨time + 1, Function.update i v (some time), o, (children v).map .enter ++ .exit v :: rest⟩
  | leave {time : Nat} {i o : α → Option Nat} {v : α} {rest : List (Visit α)} :
      Tick children ⟨time, i, o, .exit v :: rest⟩
        ⟨time + 1, i, Function.update o v (some time), rest⟩

variable {children : α → List α} {w w₁ w₂ w' : Clock α}

theorem tick_unique (first : Tick children w w₁) (second : Tick children w w₂) : w₁ = w₂ := by
  cases first <;> cases second <;> rfl

theorem not_tick (empty : w.stack = []) : ¬ Tick children w w' := by
  intro tick
  cases tick <;> cases empty

/-- The walk ends in one state only. -/
theorem ticks_unique (first : Relation.ReflTransGen (Tick children) w w₁)
    (second : Relation.ReflTransGen (Tick children) w w₂) (empty₁ : w₁.stack = [])
    (empty₂ : w₂.stack = []) : w₁ = w₂ := by
  have unique : Relator.RightUnique (Tick children) :=
    fun _ _ _ tick tick' => tick_unique tick tick'
  rcases Relation.ReflTransGen.total_of_right_unique unique first second with rest | rest
  · rcases Relation.ReflTransGen.cases_head rest with same | ⟨_, tick, -⟩
    · exact same
    · exact absurd tick (not_tick empty₁)
  · rcases Relation.ReflTransGen.cases_head rest with same | ⟨_, tick, -⟩
    · exact same.symm
    · exact absurd tick (not_tick empty₂)

/-- `x` lies below `v`, or is `v`. -/
def Under (children : α → List α) (v x : α) : Prop :=
  Relation.ReflTransGen (fun a b => b ∈ children a) v x

/-- The lists of children are those of a tree: a child has one parent, and ranks grow downwards. -/
structure ChildLists (children : α → List α) (rank : α → Nat) (bound : Nat) : Prop where
  parent : ∀ {v v' c}, c ∈ children v → c ∈ children v' → v = v'
  lower : ∀ {v c}, c ∈ children v → rank v < rank c ∧ rank c ≤ bound
  nodup : ∀ v, (children v).Nodup

/-- When `x` was entered and left. -/
def Clock.Times (w : Clock α) (x : α) (i o : Nat) : Prop :=
  w.enterAt x = some i ∧ w.leaveAt x = some o

def Clock.Inside (w : Clock α) (c x : α) : Prop :=
  ∀ i o i' o', w.Times x i o → w.Times c i' o' → i < i' ∧ o' < o

def Clock.Apart (w : Clock α) (x y : α) : Prop :=
  ∀ i o i' o', w.Times x i o → w.Times y i' o' → o < i' ∨ o' < i

/-- Between the two states the walk has gone through the nodes of `X`, and no others. -/
structure Spans (children : α → List α) (X : α → Prop) (w w' : Clock α) : Prop where
  time_le : w.time ≤ w'.time
  same : ∀ {x}, ¬ X x → w'.enterAt x = w.enterAt x ∧ w'.leaveAt x = w.leaveAt x
  times : ∀ {x}, X x → ∃ i o, w'.Times x i o ∧ w.time ≤ i ∧ i < o ∧ o < w'.time
  nested : ∀ {x}, X x → ∀ c ∈ children x, w'.Inside c x
  apart : ∀ {x}, X x → ∀ c ∈ children x, ∀ c' ∈ children x, c ≠ c' → w'.Apart c c'

omit [DecidableEq α] in
theorem Spans.times_iff {X : α → Prop} {x : α} (spans : Spans children X w w') (outside : ¬ X x)
    (i o : Nat) : w'.Times x i o ↔ w.Times x i o := by
  obtain ⟨enters, leaves⟩ := spans.same outside
  rw [Clock.Times, Clock.Times, enters, leaves]

section Below

variable {children : α → List α} {rank : α → Nat} {bound : Nat} {v x y c c' : α}

omit [DecidableEq α] in
theorem under_iff : Under children v x ↔ x = v ∨ ∃ c ∈ children v, Under children c x := by
  refine Relation.ReflTransGen.cases_head_iff.trans ?_
  rw [eq_comm]
  exact Iff.rfl

variable (tree : ChildLists children rank bound)

omit [DecidableEq α]

include tree in
theorem Under.rank_le (under : Under children v x) : x = v ∨ rank v < rank x := by
  induction under with
  | refl => exact .inl rfl
  | tail _ step ih =>
    rcases ih with rfl | lt
    · exact .inr (tree.lower step).1
    · exact .inr (lt.trans (tree.lower step).1)

include tree in
/-- No node lies below its child. -/
theorem not_under (isChild : c ∈ children v) : ¬ Under children c v := by
  intro under
  have lt := (tree.lower isChild).1
  rcases under.rank_le tree with rfl | lt'
  · exact lt_irrefl _ lt
  · exact absurd lt lt'.not_gt

include tree in
/-- What lies below two nodes shows that one of them lies below the other. -/
theorem Under.comparable (first : Under children c x) (second : Under children c' x) :
    Under children c c' ∨ Under children c' c := by
  induction first with
  | refl => exact .inr second
  | @tail p x before step ih =>
    rcases Relation.ReflTransGen.cases_tail second with rfl | ⟨p', before', step'⟩
    · exact .inl (before.tail step)
    · obtain rfl := tree.parent step step'
      exact ih before'

include tree in
theorem siblings_disjoint (first : c ∈ children v) (second : c' ∈ children v) (differ : c ≠ c')
    (under : Under children c x) : ¬ Under children c' x := by
  have notBelow : ∀ {a b}, a ∈ children v → b ∈ children v → a ≠ b → ¬ Under children a b := by
    intro a b isChild isChild' apart below
    rcases Relation.ReflTransGen.cases_tail below with same | ⟨p, before, step⟩
    · exact apart same.symm
    · obtain rfl := tree.parent step isChild'
      exact not_under tree isChild before
  intro under'
  rcases under.comparable tree under' with below | below
  · exact notBelow first second differ below
  · exact notBelow second first differ.symm below

end Below

section Walk

variable {children : α → List α} {rank : α → Nat} {bound : Nat} {v : α}
  (tree : ChildLists children rank bound)

variable {w : Clock α} {rest : List (Visit α)}

/-- The walk of the children of a node, one after the other. -/
theorem walk_children {cs : List α} (among : ∀ c ∈ cs, c ∈ children v) (nodup : cs.Nodup)
    (tree : ChildLists children rank bound)
    (each : ∀ c ∈ cs, ∀ (w : Clock α) (rest : List (Visit α)), w.stack = .enter c :: rest →
    ∃ w', Relation.ReflTransGen (Tick children) w w' ∧ w'.stack = rest ∧
      Spans children (Under children c) w w')
    (stack : w.stack = cs.map .enter ++ rest) :
    ∃ w', Relation.ReflTransGen (Tick children) w w' ∧ w'.stack = rest ∧
      Spans children (fun x => ∃ c ∈ cs, Under children c x) w w' ∧
      ∀ c ∈ cs, ∀ c' ∈ cs, c ≠ c' → w'.Apart c c' := by
  induction cs generalizing w with
  | nil =>
    refine ⟨w, .refl, stack, ⟨le_rfl, fun _ => ⟨rfl, rfl⟩, ?_, ?_, ?_⟩, by simp⟩ <;>
      rintro x ⟨c, absurd, -⟩ <;> cases absurd
  | cons c cs ih =>
    obtain ⟨isChild, areChildren⟩ := List.forall_mem_cons.mp among
    obtain ⟨fresh, nodup'⟩ := List.nodup_cons.mp nodup
    obtain ⟨w₁, ticks, stack₁, first⟩ := each c List.mem_cons_self w
      (cs.map Visit.enter ++ rest) stack
    obtain ⟨w₂, ticks', stack₂, others, between⟩ := ih areChildren nodup'
      (fun c' member => each c' (List.mem_cons_of_mem _ member)) stack₁
    have disjoint : ∀ {x}, Under children c x → ¬ ∃ c' ∈ cs, Under children c' x := by
      rintro x under ⟨c', member, under'⟩
      have differ : c ≠ c' := fun same => fresh (same ▸ member)
      exact siblings_disjoint tree isChild (areChildren c' member) differ under under'
    have kept : ∀ {x}, Under children c x → ∀ i o, w₂.Times x i o ↔ w₁.Times x i o :=
      fun under => others.times_iff (disjoint under)
    have below : ∀ {x c'}, Under children c x → c' ∈ children x → Under children c c' :=
      fun under step => under.tail step
    have later : ∀ c' ∈ cs, w₂.Apart c c' := by
      intro c' member i o i' o' times times'
      obtain ⟨i₁, o₁, ⟨-, isLeave⟩, -, -, lt⟩ := first.times (x := c) .refl
      obtain ⟨i₂, o₂, ⟨isEnter, -⟩, le, -⟩ := others.times (x := c') ⟨c', member, .refl⟩
      have sameO : o = o₁ := Option.some.inj
        (((kept .refl i o).mp times).2.symm.trans isLeave)
      have sameI : i' = i₂ := Option.some.inj (times'.1.symm.trans isEnter)
      omega
    refine ⟨w₂, ticks.trans ticks', stack₂,
      ⟨first.time_le.trans others.time_le, ?_, ?_, ?_, ?_⟩, ?_⟩
    · intro x outside
      have notFirst : ¬ Under children c x := fun under => outside ⟨c, List.mem_cons_self, under⟩
      have notOthers : ¬ ∃ c' ∈ cs, Under children c' x := fun ⟨c', member, under⟩ =>
        outside ⟨c', List.mem_cons_of_mem _ member, under⟩
      obtain ⟨enters, leaves⟩ := first.same notFirst
      obtain ⟨enters', leaves'⟩ := others.same notOthers
      exact ⟨enters'.trans enters, leaves'.trans leaves⟩
    · rintro x ⟨c', member, under⟩
      rcases List.mem_cons.mp member with rfl | member
      · obtain ⟨i, o, times, le, lt, lt'⟩ := first.times under
        exact ⟨i, o, (kept under i o).mpr times, le, lt, lt'.trans_le others.time_le⟩
      · obtain ⟨i, o, times, le, lt, lt'⟩ := others.times ⟨c', member, under⟩
        exact ⟨i, o, times, first.time_le.trans le, lt, lt'⟩
    · rintro x ⟨c', member, under⟩ y step
      rcases List.mem_cons.mp member with rfl | member
      · intro i o i' o' times times'
        exact first.nested under y step i o i' o' ((kept under i o).mp times)
          ((kept (below under step) i' o').mp times')
      · exact others.nested ⟨c', member, under⟩ y step
    · rintro x ⟨c', member, under⟩ y step y' step' differ
      rcases List.mem_cons.mp member with rfl | member
      · intro i o i' o' times times'
        exact first.apart under y step y' step' differ i o i' o'
          ((kept (below under step) i o).mp times) ((kept (below under step') i' o').mp times')
      · exact others.apart ⟨c', member, under⟩ y step y' step' differ
    · intro c₁ member₁ c₂ member₂ differ
      rcases List.mem_cons.mp member₁ with rfl | old₁
      · exact later c₂ ((List.mem_cons.mp member₂).resolve_left differ.symm)
      · rcases List.mem_cons.mp member₂ with rfl | old₂
        · intro i o i' o' times times'
          exact (later c₁ old₁ i' o' i o times' times).symm
        · exact between c₁ old₁ c₂ old₂ differ

/-- The walk of a node and all below it. -/
theorem walk_node (tree : ChildLists children rank bound) (v : α)
    (stack : w.stack = .enter v :: rest) :
    ∃ w', Relation.ReflTransGen (Tick children) w w' ∧ w'.stack = rest ∧
      Spans children (Under children v) w w' := by
  induction height : bound - rank v using Nat.strong_induction_on generalizing v w rest with
  | _ n ih =>
    obtain ⟨time, i₀, o₀, s⟩ := w
    obtain rfl : s = .enter v :: rest := stack
    have each : ∀ c ∈ children v, ∀ (w : Clock α) (rest : List (Visit α)),
        w.stack = .enter c :: rest → ∃ w', Relation.ReflTransGen (Tick children) w w' ∧
          w'.stack = rest ∧ Spans children (Under children c) w w' := by
      intro c isChild w rest stack
      obtain ⟨lt, le⟩ := tree.lower isChild
      exact ih _ (by omega) c stack rfl
    obtain ⟨w₂, ticks, stack₂, inner, between⟩ := walk_children (fun c isChild => isChild)
      (tree.nodup v) tree each (w := ⟨time + 1, Function.update i₀ v (some time), o₀,
        (children v).map .enter ++ .exit v :: rest⟩) rfl
    obtain ⟨time₂, i₂, o₂, s₂⟩ := w₂
    obtain rfl : s₂ = .exit v :: rest := stack₂
    have notInner : ¬ ∃ c ∈ children v, Under children c v :=
      fun ⟨c, isChild, under⟩ => not_under tree isChild under
    have after : time + 1 ≤ time₂ := inner.time_le
    have kept : ∀ {x}, (∃ c ∈ children v, Under children c x) → ∀ i o,
        Clock.Times ⟨time₂ + 1, i₂, Function.update o₂ v (some time₂), rest⟩ x i o ↔
          Clock.Times ⟨time₂, i₂, o₂, .exit v :: rest⟩ x i o := by
      intro x below i o
      have differ : x ≠ v := by
        rintro rfl
        exact notInner below
      simp only [Clock.Times, Function.update_of_ne differ]
    have atV : Clock.Times ⟨time₂ + 1, i₂, Function.update o₂ v (some time₂), rest⟩ v time time₂ :=
      ⟨(inner.same notInner).1.trans (Function.update_self ..), Function.update_self ..⟩
    have timesV : ∀ {i o}, Clock.Times
      ⟨time₂ + 1, i₂, Function.update o₂ v (some time₂), rest⟩ v i o →
        i = time ∧ o = time₂ := fun times =>
      ⟨Option.some.inj (times.1.symm.trans atV.1), Option.some.inj (times.2.symm.trans atV.2)⟩
    refine ⟨_, .head .enter (ticks.tail .leave), rfl, ⟨?_, ?_, ?_, ?_, ?_⟩⟩
    · change time ≤ time₂ + 1
      omega
    · intro x outside
      rw [under_iff, not_or] at outside
      obtain ⟨enters, leaves⟩ := inner.same outside.2
      exact ⟨enters.trans (Function.update_of_ne outside.1 ..),
        (Function.update_of_ne outside.1 ..).trans leaves⟩
    · intro x under
      rcases under_iff.mp under with rfl | below
      · exact ⟨time, time₂, atV, le_rfl, after, Nat.lt_succ_self _⟩
      · obtain ⟨i, o, times, le, lt, lt'⟩ := inner.times below
        exact ⟨i, o, (kept below i o).mpr times, (Nat.le_succ _).trans le, lt,
          lt'.trans (Nat.lt_succ_self _)⟩
    · intro x under c step i o i' o' times times'
      rcases under_iff.mp under with rfl | below
      · have belowC : ∃ c' ∈ children x, Under children c' c := ⟨c, step, .refl⟩
        obtain ⟨rfl, rfl⟩ := timesV times
        obtain ⟨i₁, o₁, ⟨enters, leaves⟩, le, -, lt⟩ := inner.times belowC
        obtain ⟨enters', leaves'⟩ := (kept belowC i' o').mp times'
        obtain rfl : i' = i₁ := Option.some.inj (enters'.symm.trans enters)
        obtain rfl : o' = o₁ := Option.some.inj (leaves'.symm.trans leaves)
        exact ⟨le, lt⟩
      · obtain ⟨c', isChild, under'⟩ := below
        exact inner.nested ⟨c', isChild, under'⟩ c step i o i' o'
          ((kept ⟨c', isChild, under'⟩ i o).mp times)
          ((kept ⟨c', isChild, under'.tail step⟩ i' o').mp times')
    · intro x under c step c₂ step₂ differ i o i' o' times times'
      rcases under_iff.mp under with rfl | ⟨c', isChild, under'⟩
      · exact between c step c₂ step₂ differ i o i' o' ((kept ⟨c, step, .refl⟩ i o).mp times)
          ((kept ⟨c₂, step₂, .refl⟩ i' o').mp times')
      · exact inner.apart ⟨c', isChild, under'⟩ c step c₂ step₂ differ i o i' o'
          ((kept ⟨c', isChild, under'.tail step⟩ i o).mp times)
          ((kept ⟨c', isChild, under'.tail step₂⟩ i' o').mp times')

end Walk

/-! ## What the times say -/

section Nested

variable {children : α → List α} {root x y : α} {w w' : Clock α} {i o i' o' : Nat}
  (spans : Spans children (Under children root) w w')

omit [DecidableEq α]

include spans in
/-- The times of a node enclose those of the nodes below it. -/
theorem Spans.below (known : Under children root x) (under : Under children x y)
    (times : w'.Times x i o) (times' : w'.Times y i' o') :
    x = y ∧ i = i' ∧ o = o' ∨ i < i' ∧ o' < o := by
  induction under generalizing i' o' with
  | refl =>
    exact .inl ⟨rfl, Option.some.inj (times.1.symm.trans times'.1),
      Option.some.inj (times.2.symm.trans times'.2)⟩
  | @tail p y before step ih =>
    obtain ⟨i₁, o₁, times₁, -⟩ := spans.times (known.trans before)
    have inside := spans.nested (known.trans before) y step i₁ o₁ i' o' times₁ times'
    have := ih times₁
    omega

include spans in
/-- Of two nodes one lies below the other, or their times do not overlap. -/
theorem Spans.trichotomy (known : Under children root x) (known' : Under children root y)
    (times : w'.Times x i o) (times' : w'.Times y i' o') :
    Under children x y ∨ Under children y x ∨ o < i' ∨ o' < i := by
  induction known generalizing i o with
  | refl => exact .inl known'
  | @tail p x before step ih =>
    obtain ⟨i₁, o₁, times₁, -⟩ := spans.times before
    have inside := spans.nested before x step i₁ o₁ i o times₁ times
    rcases ih times₁ with under | under | apart
    · rcases Relation.ReflTransGen.cases_head under with rfl | ⟨c, isChild, below⟩
      · exact .inr (.inl (.single step))
      · by_cases same : c = x
        · exact .inl (same ▸ below)
        · obtain ⟨i₂, o₂, times₂, -⟩ := spans.times (before.tail isChild)
          have apart := spans.apart before c isChild x step same i₂ o₂ i o times₂ times
          have := spans.below (before.tail isChild) below times₂ times'
          obtain ⟨i₃, o₃, times₃, -, lt, -⟩ := spans.times known'
          have sameI : i₃ = i' := Option.some.inj (times₃.1.symm.trans times'.1)
          have sameO : o₃ = o' := Option.some.inj (times₃.2.symm.trans times'.2)
          omega
    · exact .inr (.inl (under.tail step))
    · omega

include spans in
/-- A node lies below another exactly when its times lie inside. -/
theorem Spans.nested_iff (known : Under children root x) (known' : Under children root y)
    (times : w'.Times x i o) (times' : w'.Times y i' o') :
    i ≤ i' ∧ o' ≤ o ↔ Under children x y := by
  constructor
  · rintro ⟨le, le'⟩
    rcases spans.trichotomy known known' times times' with under | under | apart
    · exact under
    · rcases spans.below known' under times' times with ⟨rfl, -⟩ | inside
      · exact .refl
      · omega
    · obtain ⟨i₁, o₁, times₁, -, lt, -⟩ := spans.times known
      have sameI : i₁ = i := Option.some.inj (times₁.1.symm.trans times.1)
      have sameO : o₁ = o := Option.some.inj (times₁.2.symm.trans times.2)
      obtain ⟨i₂, o₂, times₂, -, lt', -⟩ := spans.times known'
      have sameI' : i₂ = i' := Option.some.inj (times₂.1.symm.trans times'.1)
      have sameO' : o₂ = o' := Option.some.inj (times₂.2.symm.trans times'.2)
      omega
  · intro under
    have := spans.below known under times times'
    omega

end Nested

/-! ## Preorder -/

section Preorder

variable {children : α → List α} {rank : α → Nat} {bound fuel : Nat} {v : α}

/-- A node, and then what lies below its children, child by child. -/
def preorder (children : α → List α) : Nat → α → Option (List α)
  | 0, _ => none
  | fuel + 1, v =>
    ((children v).mapM (preorder children fuel)).map fun below => v :: below.flatten

variable (tree : ChildLists children rank bound)

omit [DecidableEq α]

include tree in
/-- What lies below the node is listed once. -/
theorem preorder_spec {order : List α} (ran : preorder children fuel v = some order) :
    order.Nodup ∧ ∀ x, x ∈ order ↔ Under children v x := by
  induction fuel generalizing v order with
  | zero => cases ran
  | succ fuel ih =>
    obtain ⟨below, found, rfl⟩ := Option.map_eq_some_iff.mp ran
    have walked : ∀ {cs : List α} {lists : List (List α)}, cs ⊆ children v → cs.Nodup →
        List.Forall₂ (fun c list => preorder children fuel c = some list) cs lists →
        lists.flatten.Nodup ∧ ∀ x, x ∈ lists.flatten ↔ ∃ c ∈ cs, Under children c x := by
      intro cs lists among nodup each
      induction each with
      | nil => simp
      | @cons c list cs lists first _ ih' =>
        obtain ⟨isChild, among⟩ := List.cons_subset.mp among
        obtain ⟨fresh, nodup⟩ := List.nodup_cons.mp nodup
        obtain ⟨nodupHere, mem_iff⟩ := ih first
        obtain ⟨nodupLater, later_iff⟩ := ih' among nodup
        refine ⟨?_, fun x => ?_⟩
        · refine List.nodup_append.mpr ⟨nodupHere, nodupLater, ?_⟩
          rintro x here _ later rfl
          obtain ⟨c', member, under'⟩ := (later_iff x).mp later
          have differ : c ≠ c' := fun same => fresh (same ▸ member)
          exact siblings_disjoint tree isChild (among member) differ
            ((mem_iff x).mp here) under'
        · rw [List.flatten_cons, List.mem_append, mem_iff, later_iff]
          simp
    obtain ⟨nodup, mem_iff⟩ := walked (List.Subset.refl _) (tree.nodup v) (forall₂_of_mapM found)
    refine ⟨List.nodup_cons.mpr ⟨fun again => ?_, nodup⟩, fun x => ?_⟩
    · obtain ⟨c, isChild, under⟩ := (mem_iff v).mp again
      exact not_under tree isChild under
    · rw [List.mem_cons, mem_iff, under_iff]

include tree in
theorem preorder_total (enough : bound - rank v < fuel) : (preorder children fuel v).isSome := by
  induction fuel generalizing v with
  | zero => exact absurd enough (Nat.not_lt_zero _)
  | succ fuel ih =>
    have each : ∀ c ∈ children v, ∃ list, preorder children fuel c = some list := by
      intro c isChild
      obtain ⟨lt, le⟩ := tree.lower isChild
      exact Option.isSome_iff_exists.mp (ih (by omega))
    obtain ⟨below, found⟩ := mapM_isSome each
    rw [preorder, found]
    rfl

end Preorder

end AnonCompiler.Lib.TreeIntervals
