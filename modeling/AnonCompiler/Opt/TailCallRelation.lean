import AnonCompiler.Ir.Refinement
import AnonCompiler.Opt.TailCallElim

/-!
# Runs with and without tail calls

A run of the rewritten program has no activations that wait in a rewritten call:
their frames are released, or reused by the callee, when the call starts.  The
relation of this module pairs the other activations.  Frames are renamed by a
`FrameMap`, since a function that calls itself at its end keeps its frame in the
rewritten program and gets a new one in the original; the memories agree on all
objects but those of waiting activations.
-/

set_option autoImplicit false

namespace AnonCompiler.Opt.TailCallElim

open Ir

/-! ## Renaming frames -/

structure FrameMap where
  rel : Nat → Nat → Prop
  functional : ∀ {k a b}, rel k a → rel k b → a = b

namespace FrameMap

def toRenaming (φ : FrameMap) : Renaming where
  rel
    | .global inst, o' => o' = .global inst
    | .stack k f inst, o' => ∃ k', φ.rel k k' ∧ o' = .stack k' f inst
  functional := by
    rintro (inst | ⟨k, f, inst⟩) a b ha hb
    · exact ha.trans hb.symm
    · obtain ⟨k₁, h₁, rfl⟩ := ha
      obtain ⟨k₂, h₂, rfl⟩ := hb
      rw [φ.functional h₁ h₂]
  globals := Obj.global_self

/-- More frames have a counterpart. -/
def Grows (φ ψ : FrameMap) : Prop := ∀ {k k'}, φ.rel k k' → ψ.rel k k'

/-- No frame has a counterpart yet. -/
def empty : FrameMap where
  rel := fun _ _ => False
  functional := fun h => h.elim

/-- A new frame gets a counterpart. -/
def add (φ : FrameMap) (k k' : Nat) (fresh : ∀ x, ¬ φ.rel k x) : FrameMap where
  rel := fun x y => φ.rel x y ∨ x = k ∧ y = k'
  functional := by
    rintro x a b (ha | ⟨rfl, rfl⟩) (hb | ⟨isNew, rfl⟩)
    · exact φ.functional ha hb
    · exact absurd (isNew ▸ ha) (fresh a)
    · exact absurd hb (fresh b)
    · rfl

theorem le_add (φ : FrameMap) {k k' : Nat} (fresh : ∀ x, ¬ φ.rel k x) {o o' : Obj}
    (h : φ.toRenaming.rel o o') : (φ.add k k' fresh).toRenaming.rel o o' := by
  cases o with
  | global inst => exact h
  | stack fr f inst =>
    obtain ⟨x, rel, rfl⟩ := h
    exact ⟨x, .inl rel, rfl⟩

end FrameMap

/-! ## Objects of waiting activations -/

variable {World : Type}

/-- The program after the pass, in the same setting. -/
def optimized (S : Setting World) : Setting World := { S with program := run S.program }

/-- The activation waits in a call that the pass rewrites. -/
def waiting (P : Program) (a : Activation) : Bool :=
  match a.rest with
  | inst :: _ => siteIn P a.func inst
  | [] => false

/-- The object belongs to the activation. -/
def owns (a : Activation) : Obj → Bool
  | .stack k f _ => k = a.frame && f = a.func
  | .global _ => false

/-- The object belongs to no activation of the stack that waits in a rewritten
call. -/
def keep (P : Program) (stack : List Activation) (o : Obj) : Prop :=
  ∀ w ∈ stack, waiting P w = true → owns w o = false

instance (P : Program) (stack : List Activation) (o : Obj) : Decidable (keep P stack o) :=
  inferInstanceAs (Decidable (∀ w ∈ stack, waiting P w = true → owns w o = false))

/-! ## Related states -/

section Relation

variable (S : Setting World) (φ : FrameMap) (m m' : Mem)

/-- An activation and its counterpart, with their code. -/
structure PairedIn (F F' : FunctionData) (a a' : Activation) : Prop where
  data : S.program.funcData a.func = some F
  data' : (run S.program).funcData a.func = some F'
  tailed : Tailed (siteIn S.program a.func) F F'
  func : a'.func = a.func
  frame : φ.rel a.frame a'.frame
  env : a.env.Matches φ.toRenaming a'.env
  rest : Rest (siteIn S.program a.func) F F' a.rest a'.rest
  unset : ∀ i, F'.insts i ≠ F.insts i → a.env i = none
  objects : ∀ i, m.size (.stack a.frame a.func i) = Mem.allocSize F i
  objects' : ∀ i, m'.size (.stack a'.frame a.func i) = Mem.allocSize F i

def Paired (a a' : Activation) : Prop := ∃ F F', PairedIn S φ m m' F F' a a'

/-- The activation waits in a rewritten call, and returns what it gets. -/
structure Waits (w : Activation) : Prop where
  code : ∃ F call ret ty callee args value, S.program.funcData w.func = some F ∧
    w.rest = [call, ret] ∧ siteIn S.program w.func call = true ∧
      F.insts call = some ⟨ty, .call callee args⟩ ∧ F.kind ret = some (.ret value) ∧
        (value = some call ∨ value = none)

/-- The activations below the one on top. -/
inductive Below : List Activation → List Activation → Prop where
  | nil : Below [] []
  | wait {w : Activation} {below below' : List Activation} (waits : Waits S w)
      (later : Below below below') : Below (w :: below) below'
  | cons {a a' : Activation} {below below' : List Activation} (pair : Paired S φ m m' a a')
      (notWaiting : waiting S.program a = false)
      (called : ∃ F inst rest data, S.program.funcData a.func = some F ∧ a.rest = inst :: rest ∧
        F.insts inst = some data)
      (later : Below below below') : Below (a :: below) (a' :: below')

end Relation

/-- What holds of the frames of the two stacks, beside their activations. -/
structure Common (φ : FrameMap) (frames frames' : List Nat) (σ σ' : Shared World) : Prop where
  world : σ'.world = σ.world
  nodup : frames.Nodup
  nodup' : frames'.Nodup
  below : ∀ k ∈ frames, k < σ.nextFrame
  below' : ∀ k ∈ frames', k < σ'.nextFrame
  bounds : ∀ {k k'}, φ.rel k k' → k < σ.nextFrame ∧ k' < σ'.nextFrame
  live : ∀ {k f i}, σ.mem.size (.stack k f i) ≠ none → k < σ.nextFrame

/-- The activation is about to return what matches `v'`. -/
structure Ends (S : Setting World) (φ : FrameMap) (w : Activation) (v' : Option Val) : Prop where
  code : ∃ F ret value, S.program.funcData w.func = some F ∧ w.rest = [ret] ∧
    F.kind ret = some (.ret value) ∧ ∀ m v, exec S.ctx F w m ret = some (.ret v) →
      (v.getD .undef).Matches φ.toRenaming (v'.getD .undef)

/-- Related states of the original and of the rewritten program. -/
inductive Sim (S : Setting World) (φ : FrameMap) :
    Setting.State World → Setting.State World → Prop where
  | running {a a' : Activation} {below below' : List Activation}
      {σ σ' : Shared World} (pair : Paired S φ σ.mem σ'.mem a a')
      (others : Below S φ σ.mem σ'.mem below below')
      (common : Common φ (a.frame :: below.map Activation.frame)
        (a'.frame :: below'.map Activation.frame) σ σ')
      (memory : σ.mem.Matches φ.toRenaming (keep S.program below) σ'.mem) :
      Sim S φ (.running (a :: below) σ) (.running (a' :: below') σ')
  | ending {w : Activation} {below below' : List Activation} {σ σ' : Shared World}
      {v' : Option Val} {t : Setting.State World} (ends : Ends S φ w v')
      (others : Below S φ σ.mem σ'.mem below below')
      (common : Common φ (w.frame :: below.map Activation.frame) (below'.map Activation.frame) σ σ')
      (memory : σ.mem.Matches φ.toRenaming
        (fun o => keep S.program below o ∧ owns w o = false) σ'.mem)
      (returned : (optimized S).returnTo below' v' σ' = some t) :
      Sim S φ (.running (w :: below) σ) t
  | finished {v v' : Option Val} {σ σ' : Shared World}
      (value : (v.getD .undef).Matches φ.toRenaming (v'.getD .undef))
      (world : σ'.world = σ.world)
      (memory : σ.mem.Matches φ.toRenaming (fun _ => True) σ'.mem) :
      Sim S φ (.finished v σ) (.finished v' σ')

/-! ## Other memories, other frames -/

section Mono

variable {S : Setting World} {φ ψ : FrameMap} {m m' m₁ m₁' : Mem} {a a' : Activation}

theorem FrameMap.toRenaming_mono (le : φ.Grows ψ) {o o' : Obj}
    (h : φ.toRenaming.rel o o') : ψ.toRenaming.rel o o' := by
  cases o with
  | global inst => exact h
  | stack k f inst =>
    obtain ⟨k', rel, rfl⟩ := h
    exact ⟨k', le rel, rfl⟩

theorem Paired.mono (pair : Paired S φ m m' a a') (le : φ.Grows ψ)
    (size : ∀ i, m₁.size (.stack a.frame a.func i) = m.size (.stack a.frame a.func i))
    (size' : ∀ i, m₁'.size (.stack a'.frame a'.func i) = m'.size (.stack a'.frame a'.func i)) :
    Paired S ψ m₁ m₁' a a' := by
  obtain ⟨F, F', h⟩ := pair
  refine ⟨F, F', { h with
    frame := le h.frame
    env := h.env.mono (FrameMap.toRenaming_mono le)
    objects := fun i => (size i).trans (h.objects i)
    objects' := fun i => ?_ }⟩
  rw [h.func] at size'
  exact (size' i).trans (h.objects' i)

theorem Below.mono {below below' : List Activation} (h : Below S φ m m' below below')
    (le : φ.Grows ψ)
    (size : ∀ w ∈ below, ∀ i, m₁.size (.stack w.frame w.func i) = m.size (.stack w.frame w.func i))
    (size' : ∀ w ∈ below', ∀ i,
      m₁'.size (.stack w.frame w.func i) = m'.size (.stack w.frame w.func i)) :
    Below S ψ m₁ m₁' below below' := by
  induction h with
  | nil => exact .nil
  | wait waits _ ih =>
    exact .wait waits (ih (fun w member => size w (by simp [member])) size')
  | cons pair notWaiting called _ ih =>
    exact .cons (pair.mono le (size _ (by simp)) (size' _ (by simp))) notWaiting called
      (ih (fun w member => size w (by simp [member])) fun w member => size' w (by simp [member]))

end Mono

/-! ## Releasing and entering frames -/

section Frames

variable {S : Setting World} {φ : FrameMap} {m m' : Mem} {a a' : Activation}

variable {o : Obj} {keep : Obj → Prop} {G : FunctionData} {g k' : Nat}

theorem owns_iff : owns a o = true ↔ ∃ i, o = .stack a.frame a.func i := by
  cases o with
  | global inst => simp [owns]
  | stack k f i => simp [owns, and_comm]

/-- An activation has no object in common with one of another frame. -/
theorem owns_of_ne {w : Activation} (ne : w.frame ≠ a.frame) (i : Inst) :
    owns w (.stack a.frame a.func i) = false := by
  simp [owns, ne.symm]

theorem release_size_of_owns (h : owns a o = true) : (m.release a.func a.frame).size o = none := by
  obtain ⟨i, rfl⟩ := owns_iff.mp h
  simp [Mem.release]

theorem release_size_of_not_owns (h : owns a o = false) :
    (m.release a.func a.frame).size o = m.size o := by
  cases o with
  | global inst => rfl
  | stack k f i =>
    simp only [owns, Bool.and_eq_false_iff, decide_eq_false_iff_not] at h
    simp only [Mem.release]
    rw [if_neg]
    rintro ⟨rfl, rfl⟩
    simp at h

/-- Releasing the counterpart's frame leaves the objects of the other
activations. -/
theorem matches_release_target (pair : Paired S φ m m' a a')
    (own : ∀ i, keep (.stack a.frame a.func i)) (memory : m.Matches φ.toRenaming keep m') :
    m.Matches φ.toRenaming (fun o => keep o ∧ owns a o = false) (m'.release a'.func a'.frame) := by
  obtain ⟨F, F', h⟩ := pair
  refine ⟨?_, fun kept rel live => memory.byte kept.1 rel live, fun kept₁ kept₂ =>
    memory.apart kept₁.1 kept₂.1⟩
  intro o o' n kept rel size
  have size' := memory.size kept.1 rel size
  have elsewhere : owns a' o' = false := by
    by_contra isOwn
    obtain ⟨i, rfl⟩ := owns_iff.mp (by simpa using isOwn)
    -- then `o` and the object of `a` itself have the same counterpart
    rw [h.func] at size'
    have live : m.size (.stack a.frame a.func i) = some n := by
      rw [h.objects, ← h.objects', size']
    have related : φ.toRenaming.rel (.stack a.frame a.func i) (.stack a'.frame a'.func i) :=
      ⟨a'.frame, h.frame, by rw [h.func]⟩
    have same := memory.apart kept.1 (own i) (by simp [size]) (by simp [live]) rel related
    rw [same, owns_iff.mpr ⟨i, rfl⟩] at kept
    exact absurd kept.2 (by simp)
  rw [release_size_of_not_owns elsewhere, size']

/-- Fewer objects to compare. -/
theorem Matches.weaken {R : Renaming} {keep₁ : Obj → Prop} {m₁ : Mem} (h : m.Matches R keep m')
    (sub : ∀ {o}, keep₁ o → m₁.size o ≠ none → keep o ∧ m₁.size o = m.size o ∧
    m₁.byte o = m.byte o) :
    m₁.Matches R keep₁ m' := by
  refine ⟨?_, ?_, ?_⟩
  · intro o o' n kept rel size
    obtain ⟨kept', sizes, -⟩ := sub kept (by simp [size])
    exact h.size kept' rel (sizes ▸ size)
  · intro o o' kept rel live i
    obtain ⟨kept', sizes, bytes⟩ := sub kept live
    rw [bytes]
    exact h.byte kept' rel (sizes ▸ live) i
  · intro o₁ o₂ o' kept₁ kept₂ live₁ live₂
    obtain ⟨kept₁', sizes₁, -⟩ := sub kept₁ live₁
    obtain ⟨kept₂', sizes₂, -⟩ := sub kept₂ live₂
    exact h.apart kept₁' kept₂' (sizes₁ ▸ live₁) (sizes₂ ▸ live₂)

/-- Releasing a frame leaves the objects of the other activations. -/
theorem Matches.release {R : Renaming}
    (memory : m.Matches R (fun o => keep o ∧ owns a o = false) m') :
    (m.release a.func a.frame).Matches R keep m' := by
  refine Matches.weaken memory fun {o} kept live => ?_
  have elsewhere : owns a o = false := by
    by_contra isOwn
    exact live (release_size_of_owns (by simpa using isOwn))
  exact ⟨⟨kept, elsewhere⟩, release_size_of_not_owns elsewhere, rfl⟩

/-- Both sides release the frames of a pair. -/
theorem matches_release (pair : Paired S φ m m' a a') (own : ∀ i, keep (.stack a.frame a.func i))
    (memory : m.Matches φ.toRenaming keep m') :
    (m.release a.func a.frame).Matches φ.toRenaming keep (m'.release a'.func a'.frame) :=
  Matches.release (matches_release_target pair own memory)

theorem enter_size_of_ne {G : FunctionData} {g k : Nat} {o : Obj}
    (ne : ∀ i, o ≠ .stack k g i) :
    (m.enter G g k).size o = m.size o ∧ (m.enter G g k).byte o = m.byte o := by
  cases o with
  | global inst => exact ⟨rfl, rfl⟩
  | stack fr f i =>
    have differ : ¬ (fr = k ∧ f = g) := by
      rintro ⟨rfl, rfl⟩
      exact ne i rfl
    simp [Mem.enter, differ]

@[simp] theorem enter_size_self {G : FunctionData} {g k : Nat} {i : Inst} :
    (m.enter G g k).size (.stack k g i) = Mem.allocSize G i := by
  simp [Mem.enter]

/-- A fresh frame of the target touches nothing that is compared. -/
theorem matches_enter_target (fresh : ∀ x, ¬ φ.rel x k') (memory : m.Matches φ.toRenaming keep m') :
    m.Matches φ.toRenaming keep (m'.enter G g k') := by
  have other : ∀ {o o'}, φ.toRenaming.rel o o' → ∀ i, o' ≠ .stack k' g i := by
    rintro (inst | ⟨k, f, inst⟩) o' rel i rfl
    · cases rel
    · obtain ⟨x, rel, same⟩ := rel
      cases same
      exact fresh k rel
  refine ⟨?_, ?_, memory.apart⟩
  · intro o o' n kept rel size
    rw [(enter_size_of_ne (other rel)).1]
    exact memory.size kept rel size
  · intro o o' kept rel live i
    rw [(enter_size_of_ne (other rel)).2]
    exact memory.byte kept rel live i

/-- The objects of a new frame match those of its counterpart, whatever is in
them. -/
theorem matches_enter_source {k : Nat} (fresh : ∀ x, ¬ φ.rel k x)
    (unused : ∀ f i, m.size (.stack k f i) = none)
    (target : ∀ i n, Mem.allocSize G i = some n → m'.size (.stack k' g i) = some n)
    (apart : ∀ x i, φ.rel x k' → keep (.stack x g i) → m.size (.stack x g i) ≠ none →
    Mem.allocSize G i = none)
    (memory : m.Matches φ.toRenaming keep m') :
    (m.enter G g k).Matches (φ.add k k' fresh).toRenaming keep m' := by
  -- a live object is one of the new frame, or one of those before
  have split : ∀ {o o'}, (φ.add k k' fresh).toRenaming.rel o o' → (m.enter G g k).size o ≠ none →
      (∃ i n, o = .stack k g i ∧ o' = .stack k' g i ∧ Mem.allocSize G i = some n) ∨
        φ.toRenaming.rel o o' ∧ (m.enter G g k).size o = m.size o ∧
          (m.enter G g k).byte o = m.byte o := by
    rintro (inst | ⟨fr, f, i⟩) o' rel live
    · exact .inr ⟨rel, rfl, rfl⟩
    · obtain ⟨x, rel | ⟨rfl, rfl⟩, rfl⟩ := rel
      · have differ : fr ≠ k := by
          rintro rfl
          exact fresh x rel
        obtain ⟨sizes, bytes⟩ := @enter_size_of_ne m G g k (.stack fr f i) fun j same => by
          cases same
          exact differ rfl
        exact .inr ⟨⟨x, rel, rfl⟩, sizes, bytes⟩
      · by_cases sameFunc : f = g
        · subst sameFunc
          rw [enter_size_self] at live
          obtain ⟨n, size⟩ := Option.ne_none_iff_exists'.mp live
          exact .inl ⟨i, n, rfl, rfl, size⟩
        · rw [(@enter_size_of_ne m G g fr (.stack fr f i) fun j same => by
            cases same
            exact sameFunc rfl).1, unused] at live
          exact absurd rfl live
  refine ⟨?_, ?_, ?_⟩
  · intro o o' n kept rel size
    rcases split rel (by simp [size]) with ⟨i, n', rfl, rfl, size'⟩ | ⟨rel', sizes, -⟩
    · rw [enter_size_self, size'] at size
      rw [← size]
      exact target i n' size'
    · exact memory.size kept rel' (sizes ▸ size)
  · intro o o' kept rel live i
    rcases split rel live with ⟨j, n, rfl, rfl, -⟩ | ⟨rel', sizes, bytes⟩
    · have undefined : (m.enter G g k).byte (.stack k g j) i = .undef := by simp [Mem.enter]
      rw [undefined]
      exact .undef _
    · rw [bytes]
      exact (memory.byte kept rel' (sizes ▸ live) i).mono (φ.le_add fresh)
  · intro o₁ o₂ o' kept₁ kept₂ live₁ live₂ rel₁ rel₂
    -- an old object with the counterpart of a new one contradicts `apart`
    have clash : ∀ {o i n}, keep o → φ.toRenaming.rel o (.stack k' g i) → m.size o ≠ none →
        Mem.allocSize G i = some n → False := by
      rintro (inst | ⟨x, f, j⟩) i n kept rel live size
      · cases rel
      · obtain ⟨y, rel, same⟩ := rel
        cases same
        rw [apart x j rel kept live] at size
        cases size
    rcases split rel₁ live₁ with ⟨i, n, rfl, rfl, size⟩ | ⟨rel₁', sizes₁, -⟩ <;>
      rcases split rel₂ live₂ with ⟨j, n', rfl, same, size'⟩ | ⟨rel₂', sizes₂, -⟩
    · cases same
      rfl
    · exact (clash kept₂ rel₂' (sizes₂ ▸ live₂) size).elim
    · subst same
      exact (clash kept₁ rel₁' (sizes₁ ▸ live₁) size').elim
    · exact memory.apart kept₁ kept₂ (sizes₁ ▸ live₁) (sizes₂ ▸ live₂) rel₁' rel₂'

end Frames

end AnonCompiler.Opt.TailCallElim
