import Mathlib.Tactic
import Mathlib.Logic.Relation

/-!
# The ends of chains

A partial function makes chains.  A chain leaves the domain at some end, or it never
does, because it runs into a cycle.  `resolveAll` finds the ends of many chains: it walks
from every start until it meets something it knows already, leaves the domain or comes
back to its own path, and writes the result down for the whole path.  Two ways to walk
differ in whether the end itself is put on the path.
-/

set_option autoImplicit false

namespace AnonCompiler.Lib.Chains

variable {α : Type} (next : α → Option α)

/-- The chain from `a` leaves the domain at `t`. -/
inductive Leads : α → α → Prop where
  | out {t : α} (out : next t = none) : Leads t t
  | step {a b t : α} (step : next a = some b) (later : Leads b t) : Leads a t

/-- One step of a chain. -/
def Steps (a b : α) : Prop := next a = some b

section Walk

variable [DecidableEq α] (final : α → Option (Option α))

/-- The result for the path, which has the last element first. -/
def walk : Nat → List α → α → Option (Option α × List α)
  | 0, _, _ => none
  | fuel + 1, path, current =>
    match final current with
    | some resolved => some (resolved, path)
    | none =>
      if current ∈ path then some (none, path)
      else
        match next current with
        | none => none
        | some target =>
          match next target with
          | none => some (some target, current :: path)
          | some _ => walk fuel (current :: path) target

/-- A walk that takes the end in, and gives up at an element that leads to itself. -/
def walkThrough : Nat → List α → α → Option (Option α × List α)
  | 0, _, _ => none
  | fuel + 1, path, current =>
    match final current with
    | some resolved => some (resolved, path)
    | none =>
      if current ∈ path then some (none, path)
      else
        match next current with
        | some target =>
          if target ≠ current then walkThrough fuel (current :: path) target
          else some (none, current :: path)
        | none => some (some current, current :: path)

end Walk

/-- Walk from every start that has no result yet. -/
def resolveAll [DecidableEq α]
    (walkFrom : (α → Option (Option α)) → α → Option (Option α × List α)) :
    List α → (α → Option (Option α)) → Option (α → Option (Option α))
  | [], final => some final
  | start :: starts, final =>
    if (final start).isSome then resolveAll walkFrom starts final
    else
      (walkFrom final start).bind fun (resolved, path) =>
        resolveAll walkFrom starts fun x => if x ∈ path then some resolved else final x

section Spec

variable {next} {a b t t' : α}

variable {path path' keys starts : List α} {fuel : Nat} {current : α} {resolved : Option α}

theorem Leads.unique (h : Leads next a t) (h' : Leads next a t') : t = t' := by
  induction h with
  | out out =>
    cases h' with
    | out => rfl
    | step step _ => exact absurd (out.symm.trans step) (by simp)
  | step step _ ih =>
    cases h' with
    | out out => exact absurd (out.symm.trans step) (by simp)
    | step step' later' =>
      cases Option.some.inj (step.symm.trans step')
      exact ih later'

theorem Leads.ends (h : Leads next a t) : next t = none := by
  induction h with
  | out out => exact out
  | step _ _ ih => exact ih

/-- The end does not change along the chain. -/
theorem leads_step (step : next a = some b) : Leads next a t ↔ Leads next b t := by
  constructor
  · intro h
    cases h with
    | out out => exact absurd (out.symm.trans step) (by simp)
    | step step' later =>
      cases Option.some.inj (step.symm.trans step')
      exact later
  · exact .step step

/-- A chain that comes back never leaves. -/
theorem not_leads_of_cycle (cycle : Relation.TransGen (Steps next) a a) : ¬ Leads next a t := by
  intro h
  induction h with
  | out out =>
    rcases Relation.TransGen.head'_iff.mp cycle with ⟨c, first, -⟩
    exact absurd (out.symm.trans first) (by simp)
  | @step a b t step _ ih =>
    rcases Relation.TransGen.head'_iff.mp cycle with ⟨c, first, rest⟩
    cases Option.some.inj (step.symm.trans first)
    exact ih (Relation.TransGen.tail' rest step)

/-- What is written down is right. -/
def Resolves (next : α → Option α) (final : α → Option (Option α)) : Prop :=
  ∀ {x resolved}, final x = some resolved → ∀ t, resolved = some t ↔ Leads next x t

/-- Everything on the path goes on to the current element. -/
structure Path (next : α → Option α) (path : List α) (current : α) : Prop where
  reaches : ∀ x ∈ path, Relation.TransGen (Steps next) x current
  leads : ∀ x ∈ path, ∀ t, Leads next x t ↔ Leads next current t

theorem Path.nil : Path next [] a := ⟨by simp, by simp⟩

theorem Path.cons {path : List α} (h : Path next path a) (step : next a = some b) :
    Path next (a :: path) b where
  reaches x member := by
    rcases List.mem_cons.mp member with rfl | earlier
    · exact .single step
    · exact .tail (h.reaches x earlier) step
  leads x member t := by
    rcases List.mem_cons.mp member with rfl | earlier
    · exact leads_step step
    · exact (h.leads x earlier t).trans (leads_step step)

/-- The current element shares its end with the path. -/
theorem Path.leads_cons (h : Path next path a) {x : α} (member : x ∈ a :: path) :
    Leads next x t ↔ Leads next a t := by
  rcases List.mem_cons.mp member with rfl | earlier
  · exact Iff.rfl
  · exact h.leads x earlier t

/-- What a walk has to find: the end of everything on its path, the start included. -/
def Finds (next : α → Option α) (final : α → Option (Option α)) (start : α) (path : List α)
    (resolved : Option α) : Prop :=
  (∀ x ∈ path, ∀ t, resolved = some t ↔ Leads next x t) ∧ (final start = none → start ∈ path)

variable [DecidableEq α] {final : α → Option (Option α)}

theorem walk_finds (known : Resolves next final) (onPath : Path next path current)
    (walked : walk next final fuel path current = some (resolved, path')) :
    Finds next final current path' resolved ∧ path ⊆ path' := by
  induction fuel generalizing path current with
  | zero => cases walked
  | succ fuel ih =>
    rw [walk] at walked
    split at walked
    · next isKnown =>
        cases walked
        refine ⟨⟨fun x member t => ?_, fun unknown => ?_⟩, List.Subset.refl _⟩
        · rw [known isKnown, onPath.leads x member]
        · rw [isKnown] at unknown
          cases unknown
    · next unknown =>
        split at walked
        · next back =>
            cases walked
            refine ⟨⟨fun x member t => ?_, fun _ => back⟩, List.Subset.refl _⟩
            rw [onPath.leads x member]
            exact iff_of_false (by simp) (not_leads_of_cycle (onPath.reaches current back))
        · split at walked
          · cases walked
          · next target step =>
              split at walked
              · next out =>
                  cases walked
                  have ends : Leads next current target := .step step (.out out)
                  refine ⟨⟨fun x member t => ?_, fun _ => List.mem_cons_self⟩,
                    List.subset_cons_self _ _⟩
                  rw [onPath.leads_cons member, Option.some.injEq]
                  exact ⟨fun eq => eq ▸ ends, fun leads => ends.unique leads⟩
              · next further inside =>
                  obtain ⟨⟨right, -⟩, grows⟩ := ih (onPath.cons step) walked
                  exact ⟨⟨right, fun _ => grows List.mem_cons_self⟩,
                    fun x member => grows (List.mem_cons_of_mem _ member)⟩

theorem walkThrough_finds (known : Resolves next final) (onPath : Path next path current)
    (walked : walkThrough next final fuel path current = some (resolved, path')) :
    Finds next final current path' resolved ∧ path ⊆ path' := by
  induction fuel generalizing path current with
  | zero => cases walked
  | succ fuel ih =>
    rw [walkThrough] at walked
    split at walked
    · next isKnown =>
        cases walked
        refine ⟨⟨fun x member t => ?_, fun unknown => ?_⟩, List.Subset.refl _⟩
        · rw [known isKnown, onPath.leads x member]
        · rw [isKnown] at unknown
          cases unknown
    · next unknown =>
        split at walked
        · next back =>
            cases walked
            refine ⟨⟨fun x member t => ?_, fun _ => back⟩, List.Subset.refl _⟩
            rw [onPath.leads x member]
            exact iff_of_false (by simp) (not_leads_of_cycle (onPath.reaches current back))
        · split at walked
          · next target step =>
              split at walked
              · obtain ⟨⟨right, -⟩, grows⟩ := ih (onPath.cons step) walked
                exact ⟨⟨right, fun _ => grows List.mem_cons_self⟩,
                  fun x member => grows (List.mem_cons_of_mem _ member)⟩
              · next own =>
                  cases walked
                  obtain rfl := not_not.mp own
                  refine ⟨⟨fun x member t => ?_, fun _ => List.mem_cons_self⟩,
                    List.subset_cons_self _ _⟩
                  rw [onPath.leads_cons member]
                  exact iff_of_false (by simp) (not_leads_of_cycle (.single step))
          · next out =>
              cases walked
              refine ⟨⟨fun x member t => ?_, fun _ => List.mem_cons_self⟩,
                List.subset_cons_self _ _⟩
              rw [onPath.leads_cons member, Option.some.injEq]
              exact ⟨fun eq => eq ▸ .out out, fun leads => (Leads.out out).unique leads⟩

/-- The walk stays on the keys, so it ends. -/
theorem walk_total (inKeys : ∀ x, next x ≠ none → x ∈ keys) (inside : next current ≠ none)
    (nodup : path.Nodup) (subset : path ⊆ keys) (enough : keys.length < fuel + path.length) :
    (walk next final fuel path current).isSome := by
  induction fuel generalizing path current with
  | zero =>
    have := (nodup.subperm subset).length_le
    omega
  | succ fuel ih =>
    rw [walk]
    split
    · rfl
    · split
      · rfl
      · next notBack =>
          obtain ⟨target, step⟩ := Option.ne_none_iff_exists'.mp inside
          simp only [step]
          split
          · rfl
          · next further step' =>
              refine ih (by simp [step']) (List.nodup_cons.mpr ⟨notBack, nodup⟩) ?_ ?_
              · exact List.cons_subset.mpr ⟨inKeys current inside, subset⟩
              · rw [List.length_cons]
                omega

/-- The path before the current element lies inside the keys, so the walk ends. -/
theorem walkThrough_total (inKeys : ∀ x, next x ≠ none → x ∈ keys) (nodup : path.Nodup)
    (subset : path ⊆ keys) (enough : keys.length < fuel + path.length) :
    (walkThrough next final fuel path current).isSome := by
  induction fuel generalizing path current with
  | zero =>
    have := (nodup.subperm subset).length_le
    omega
  | succ fuel ih =>
    rw [walkThrough]
    split
    · rfl
    · split
      · rfl
      · next notBack =>
          split
          · next target step =>
              split
              · refine ih (List.nodup_cons.mpr ⟨notBack, nodup⟩) ?_ ?_
                · exact List.cons_subset.mpr ⟨inKeys current (by simp [step]), subset⟩
                · rw [List.length_cons]
                  omega
              · rfl
          · rfl

variable {walkFrom : (α → Option (Option α)) → α → Option (Option α × List α)}

theorem resolveAll_spec
    (finds : ∀ {final start path resolved}, Resolves next final →
    walkFrom final start = some (resolved, path) → Finds next final start path resolved)
    {result : α → Option (Option α)} (known : Resolves next final)
    (run : resolveAll walkFrom starts final = some result) :
    Resolves next result ∧ (∀ x, (final x).isSome → (result x).isSome) ∧
      ∀ x ∈ starts, (result x).isSome := by
  induction starts generalizing final with
  | nil =>
    cases run
    exact ⟨known, fun _ isSome => isSome, fun x member => absurd member List.not_mem_nil⟩
  | cons start starts ih =>
    rw [resolveAll] at run
    split at run
    · next isKnown =>
        obtain ⟨right, keeps, all⟩ := ih known run
        refine ⟨right, keeps, fun x member => ?_⟩
        rcases List.mem_cons.mp member with rfl | later
        · exact keeps x isKnown
        · exact all x later
    · next unknown =>
        obtain ⟨⟨resolved, path⟩, walked, run⟩ := Option.bind_eq_some_iff.mp run
        have none : final start = none := by
          simpa [Option.isSome_iff_ne_none] using unknown
        obtain ⟨onPath, hasStart⟩ := finds known walked
        have known' : Resolves next fun x => if x ∈ path then some resolved else final x := by
          intro x r isResolved t
          simp only at isResolved
          split at isResolved
          · next member =>
              cases isResolved
              exact onPath x member t
          · exact known isResolved t
        obtain ⟨right, keeps, all⟩ := ih known' run
        refine ⟨right, fun x isSome => keeps x ?_, fun x member => ?_⟩
        · simp only
          split
          · rfl
          · exact isSome
        · rcases List.mem_cons.mp member with rfl | later
          · exact keeps x (by simp [hasStart none])
          · exact all x later

theorem resolveAll_total (total : ∀ start ∈ starts, ∀ final, (walkFrom final start).isSome) :
    (resolveAll walkFrom starts final).isSome := by
  induction starts generalizing final with
  | nil => rfl
  | cons start starts ih =>
    have later : ∀ x ∈ starts, ∀ final, (walkFrom final x).isSome := fun x member =>
      total x (List.mem_cons_of_mem start member)
    rw [resolveAll]
    split
    · exact ih later
    · obtain ⟨⟨resolved, path⟩, walked⟩ := Option.isSome_iff_exists.mp
        (total start List.mem_cons_self final)
      rw [walked]
      exact ih later

end Spec

end AnonCompiler.Lib.Chains
