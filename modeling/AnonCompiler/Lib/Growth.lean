import Mathlib.Algebra.Order.BigOperators.Group.Finset
import Mathlib.Data.List.AList

/-!
# Maps that grow

Finite maps into which values are merged: a key that is new gets the value, and the
value of an old key is merged with the one it has.  A merge says whether it changed
anything.  Where a merge that changes a value makes it larger, a merge that changes a
map makes the map weigh more; over finitely many keys with values of bounded size the
weight is bounded, so only finitely many merges change anything.
-/

set_option autoImplicit false

namespace AnonCompiler.Lib

universe u v

abbrev FinMap (K : Type u) (V : Type v) := AList fun _ : K => V

variable {K : Type u} {V : Type v} [DecidableEq K]

namespace FinMap

variable {m m' m'' : FinMap K V} {k : K} {v old : V}

variable {good : V → Prop} {rel : V → V → Prop}

theorem lookup_insert_eq (m : FinMap K V) (k : K) (v : V) (x : K) :
    (m.insert k v).lookup x = if x = k then some v else m.lookup x := by
  split
  · next same => rw [same, AList.lookup_insert]
  · next differ => exact AList.lookup_insert_ne differ

/-! ## A property of all values -/

def All (good : V → Prop) (m : FinMap K V) : Prop := ∀ ⦃k v⦄, m.lookup k = some v → good v

section All

variable {good : V → Prop}

theorem All.empty : All good (∅ : FinMap K V) := fun _ _ found => by simp at found

theorem All.insert (all : All good m) (isGood : good v) : All good (m.insert k v) := by
  intro x w found
  rw [lookup_insert_eq] at found
  split at found
  · exact Option.some.inj found ▸ isGood
  · exact all found

theorem All.erase (all : All good m) : All good (m.erase k) := by
  intro x w found
  have other : x ≠ k := by
    rintro rfl
    simp at found
  exact all (AList.lookup_erase_ne other ▸ found)

theorem All.of_mem (all : All good m) {entry : Sigma fun _ : K => V} (member : entry ∈ m.entries) :
    good entry.2 :=
  all (AList.mem_lookup_iff.mpr member)

end All

/-! ## Growth -/

/-- The keys of the first map are keys of the second, with related values. -/
def Grows (rel : V → V → Prop) (m m' : FinMap K V) : Prop :=
  ∀ ⦃k v⦄, m.lookup k = some v → ∃ v', m'.lookup k = some v' ∧ rel v v'

section Grows

variable {rel : V → V → Prop}

theorem Grows.refl (refl : ∀ v, rel v v) (m : FinMap K V) : Grows rel m m := fun _ v found =>
  ⟨v, found, refl v⟩

theorem Grows.trans (trans : ∀ {a b c}, rel a b → rel b c → rel a c) (first : Grows rel m m')
    (second : Grows rel m' m'') : Grows rel m m'' := by
  intro k v found
  obtain ⟨v', found', up⟩ := first found
  obtain ⟨v'', found'', up'⟩ := second found'
  exact ⟨v'', found'', trans up up'⟩

theorem Grows.insert (refl : ∀ v, rel v v) (up : ∀ old, m.lookup k = some old → rel old v) :
    Grows rel m (m.insert k v) := by
  intro x w found
  rw [lookup_insert_eq]
  split
  · next same => exact ⟨v, rfl, up w (same ▸ found)⟩
  · exact ⟨w, found, refl w⟩

end Grows

/-! ## Merging -/

/-- Merge a value into the one of a key; the flag says that the map has changed. -/
def mergeAt (merge : V → V → V × Bool) (m : FinMap K V) (k : K) (v : V) : FinMap K V × Bool :=
  match m.lookup k with
  | some old => (m.insert k (merge old v).1, (merge old v).2)
  | none => (m.insert k v, true)

/-- The flag of several merges says that one of them has changed the map. -/
def mergeEntry (merge : V → V → V × Bool) (acc : FinMap K V × Bool) (entry : Sigma fun _ : K => V) :
    FinMap K V × Bool :=
  ((mergeAt merge acc.1 entry.1 entry.2).1, acc.2 || (mergeAt merge acc.1 entry.1 entry.2).2)

def mergeAll (merge : V → V → V × Bool) (m incoming : FinMap K V) : FinMap K V × Bool :=
  incoming.entries.foldl (mergeEntry merge) (m, false)

variable {merge : V → V → V × Bool} {incoming : FinMap K V}

theorem mergeAt_all (keeps : ∀ {old v}, good old → good v → good (merge old v).1) (all : All good m)
    (isGood : good v) : All good (mergeAt merge m k v).1 := by
  unfold mergeAt
  split
  · next old found => exact all.insert (keeps (all found) isGood)
  · exact all.insert isGood

theorem mergeAt_grows (refl : ∀ v, rel v v) (up : ∀ old v, rel old (merge old v).1) (m : FinMap K V)
    (k : K) (v : V) : Grows rel m (mergeAt merge m k v).1 := by
  unfold mergeAt
  split
  · next old found =>
      refine Grows.insert refl fun old' found' => ?_
      obtain rfl := Option.some.inj (found.symm.trans found')
      exact up old v
  · next absent =>
      exact Grows.insert refl fun old found => by simp [absent] at found

/-- What a merge at one key keeps, merging a whole map keeps. -/
theorem mergeAll_invariant {Q : FinMap K V → Prop} (holds : Q m)
    (keeps : ∀ m', Q m' → ∀ entry ∈ incoming.entries, Q (mergeAt merge m' entry.1 entry.2).1) :
    Q (mergeAll merge m incoming).1 := by
  unfold mergeAll
  suffices ∀ (entries : List (Sigma fun _ : K => V)) (acc : FinMap K V × Bool), Q acc.1 →
      (∀ entry ∈ entries, entry ∈ incoming.entries) →
      Q (entries.foldl (mergeEntry merge) acc).1 from
    this _ _ holds fun _ member => member
  intro entries
  induction entries with
  | nil => exact fun _ holds _ => holds
  | cons entry entries ih =>
    intro acc holds inside
    exact ih _ (keeps _ holds entry (inside entry List.mem_cons_self)) fun e member =>
      inside e (List.mem_cons_of_mem _ member)

theorem mergeAll_all (keeps : ∀ {old v}, good old → good v → good (merge old v).1)
    (all : All good m) (allIncoming : All good incoming) : All good (mergeAll merge m incoming).1 :=
  mergeAll_invariant all fun _ all' _ member => mergeAt_all keeps all' (allIncoming.of_mem member)

theorem mergeAll_grows (refl : ∀ v, rel v v) (trans : ∀ {a b c}, rel a b → rel b c → rel a c)
    (up : ∀ old v, rel old (merge old v).1) (m incoming : FinMap K V) :
    Grows rel m (mergeAll merge m incoming).1 :=
  mergeAll_invariant (Q := Grows rel m) (Grows.refl refl m) fun m' grown entry _ =>
    grown.trans trans (mergeAt_grows refl up m' entry.1 entry.2)

theorem lookup_mergeAt (merge : V → V → V × Bool) (m : FinMap K V) (k : K) (v : V) (x : K) :
    (mergeAt merge m k v).1.lookup x =
      if x = k then some ((m.lookup k).elim v fun old => (merge old v).1) else m.lookup x := by
  unfold mergeAt
  split
  · next old found => rw [lookup_insert_eq, found, Option.elim_some]
  · next absent => rw [lookup_insert_eq, absent, Option.elim_none]

/-- Every key is merged once. -/
theorem lookup_mergeAll (merge : V → V → V × Bool) (m incoming : FinMap K V) (x : K) :
    (mergeAll merge m incoming).1.lookup x = (incoming.lookup x).elim (m.lookup x) fun v =>
      some ((m.lookup x).elim v fun old => (merge old v).1) := by
  suffices ∀ (entries : List (Sigma fun _ : K => V)) (acc : FinMap K V × Bool),
      entries.NodupKeys → (entries.foldl (mergeEntry merge) acc).1.lookup x =
        (entries.dlookup x).elim (acc.1.lookup x) fun v =>
          some ((acc.1.lookup x).elim v fun old => (merge old v).1) from
    this _ (m, false) incoming.nodupKeys
  intro entries
  induction entries with
  | nil => exact fun _ _ => rfl
  | cons entry entries ih =>
    intro acc nodup
    obtain ⟨k, v⟩ := entry
    obtain ⟨fresh, nodup⟩ := List.nodupKeys_cons.mp nodup
    rw [List.foldl_cons, ih _ nodup, mergeEntry, lookup_mergeAt]
    by_cases same : x = k
    · subst same
      rw [List.dlookup_eq_none.mpr fresh, List.dlookup_cons_eq, if_pos rfl]
      rfl
    · rw [List.dlookup_cons_ne _ _ same, if_neg same]

/-! ## Weight -/

/-- What a map holds under the given keys. -/
def weight (keys : Finset K) (size : K → V → Nat) (m : FinMap K V) : Nat :=
  ∑ k ∈ keys, (m.lookup k).elim 0 fun v => size k v + 1

variable {keys : Finset K} {size : K → V → Nat}

theorem weight_le {top : K → Nat} (below : ∀ k v, m.lookup k = some v → size k v ≤ top k) :
    weight keys size m ≤ ∑ k ∈ keys, (top k + 1) := by
  refine Finset.sum_le_sum fun k _ => ?_
  cases found : m.lookup k with
  | none => exact Nat.zero_le _
  | some v => exact Nat.succ_le_succ (below k v found)

/-- Inserting changes the term of one key. -/
theorem weight_insert (size : K → V → Nat) (inside : k ∈ keys) :
    weight keys size (m.insert k v) + (m.lookup k).elim 0 (fun old => size k old + 1) =
      weight keys size m + (size k v + 1) := by
  unfold weight
  rw [← Finset.add_sum_erase _ _ inside, ← Finset.add_sum_erase keys (fun k =>
    (m.lookup k).elim 0 fun v => size k v + 1) inside, AList.lookup_insert, Option.elim_some]
  have others : ∑ x ∈ keys.erase k, ((m.insert k v).lookup x).elim 0 (fun w => size x w + 1) =
      ∑ x ∈ keys.erase k, (m.lookup x).elim 0 fun w => size x w + 1 :=
    Finset.sum_congr rfl fun x member => by
      rw [AList.lookup_insert_ne (Finset.ne_of_mem_erase member)]
  rw [others]
  omega

/-- A merge that changes the map makes it heavier. -/
theorem mergeAt_weight (size : K → V → Nat) (inside : k ∈ keys)
    (counts : ∀ old, m.lookup k = some old →
      size k old + (merge old v).2.toNat ≤ size k (merge old v).1) :
    weight keys size m + (mergeAt merge m k v).2.toNat ≤
      weight keys size (mergeAt merge m k v).1 := by
  unfold mergeAt
  split
  · next old found =>
      have grown := weight_insert size (m := m) (v := (merge old v).1) inside
      have := counts old found
      rw [found, Option.elim_some] at grown
      dsimp only
      omega
  · next absent =>
      have grown := weight_insert size (m := m) (v := v) inside
      rw [absent, Option.elim_none] at grown
      dsimp only [Bool.toNat_true]
      omega

/-- The merges of the entries one after the other, each of good values. -/
theorem mergeAll_weight (keeps : ∀ {old v}, good old → good v → good (merge old v).1)
    (counts : ∀ {k old v}, good old → good v →
    size k old + (merge old v).2.toNat ≤ size k (merge old v).1)
    (all : All good m) (allIncoming : All good incoming)
    (inside : ∀ entry ∈ incoming.entries, entry.1 ∈ keys) :
    weight keys size m + (mergeAll merge m incoming).2.toNat ≤
      weight keys size (mergeAll merge m incoming).1 := by
  suffices ∀ (entries : List (Sigma fun _ : K => V)) (acc : FinMap K V × Bool), All good acc.1 →
      (∀ entry ∈ entries, entry ∈ incoming.entries) →
      weight keys size acc.1 + (entries.foldl (mergeEntry merge) acc).2.toNat ≤
        weight keys size (entries.foldl (mergeEntry merge) acc).1 + acc.2.toNat from
    this _ (m, false) all fun _ member => member
  intro entries
  induction entries with
  | nil => exact fun acc _ _ => le_rfl
  | cons entry entries ih =>
    intro acc all members
    have member := members entry List.mem_cons_self
    have isGood := allIncoming.of_mem member
    have here := mergeAt_weight size (m := acc.1) (inside entry member) fun old found =>
      counts (all found) isGood
    have rest := ih (mergeEntry merge acc entry) (mergeAt_all keeps all isGood) fun e m =>
      members e (List.mem_cons_of_mem _ m)
    have flags : ∀ a b : Bool, (a || b).toNat ≤ a.toNat + b.toNat := by decide
    have flag : (mergeEntry merge acc entry).2.toNat ≤
        acc.2.toNat + (mergeAt merge acc.1 entry.1 entry.2).2.toNat := flags _ _
    rw [List.foldl_cons]
    have merged : (mergeEntry merge acc entry).1 = (mergeAt merge acc.1 entry.1 entry.2).1 := rfl
    rw [merged] at rest
    omega

end FinMap

end AnonCompiler.Lib
