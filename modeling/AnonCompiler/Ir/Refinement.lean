import AnonCompiler.Lib.Enumeration
import AnonCompiler.Ir.ProgramRun

/-!
# Refinement of values and memories

Two runs of related programs use different names for the same objects, and one
of them may find a value where the other finds an undefined one.  A `Renaming`
relates the objects; `Val.Matches` and `MByte.Matches` are equality up to the
renaming, with everything above an undefined value; `Mem.Matches` compares the
memories on the objects kept.

Every operation of `Ir.Exec` respects the relations: `exec_matches` says so of a
whole instruction, as long as it accesses only objects that are kept.
-/

set_option autoImplicit false

namespace AnonCompiler.Ir

/-- A correspondence between the objects of two runs. -/
structure Renaming where
  rel : Obj → Obj → Prop
  functional : ∀ {o a b}, rel o a → rel o b → a = b
  globals : ∀ inst, rel (.global inst) (.global inst)

variable {R : Renaming} {env env' : Env} {args args' : List Val}

theorem Obj.global_self (inst : Inst) : Obj.global inst = .global inst := rfl

/-- Corresponding addresses. -/
structure Ptr.Matches (R : Renaming) (p p' : Ptr) : Prop where
  obj : R.rel p.obj p'.obj
  off : p.off = p'.off

inductive MByte.Matches (R : Renaming) : MByte → MByte → Prop where
  | undef (b : MByte) : Matches R .undef b
  | byte (value : BitVec 8) : Matches R (.byte value) (.byte value)
  | fragment {p p' : Ptr} (index : Nat) (h : p.Matches R p') :
      Matches R (.fragment p index) (.fragment p' index)

inductive Val.Matches (R : Renaming) : Val → Val → Prop where
  | undef (v : Val) : Matches R .undef v
  | int (value : BitVec 32) : Matches R (.int value) (.int value)
  | float (bits : BitVec 32) : Matches R (.float bits) (.float bits)
  | ptr {p p' : Ptr} (h : p.Matches R p') : Matches R (.ptr p) (.ptr p')
  | vec (lanes : List (BitVec 32)) : Matches R (.vec lanes) (.vec lanes)
  | bytes {c c' : List MByte} (h : List.Forall₂ (MByte.Matches R) c c') :
      Matches R (.bytes c) (.bytes c')

section Values

variable {R : Renaming} {v v' : Val}

variable {p : Ptr} {count : Nat} {c c' : List MByte}

theorem Ptr.Matches.unique {a b : Ptr} (h₁ : p.Matches R a) (h₂ : p.Matches R b) : a = b := by
  obtain ⟨oa, fa⟩ := a
  obtain ⟨ob, fb⟩ := b
  obtain rfl : oa = ob := R.functional h₁.obj h₂.obj
  obtain rfl : fa = fb := h₁.off.symm.trans h₂.off
  rfl

theorem Val.Matches.int_eq {a : BitVec 32} (h : (Val.int a).Matches R v) : v = .int a := by
  cases h
  rfl

theorem Val.Matches.fit (h : v.Matches R v') (ty : Ty) : (v.fit ty).Matches R (v'.fit ty) := by
  cases h with
  | undef => cases ty <;> exact .undef _
  | int value => cases ty <;> first | exact .int value | exact .undef _
  | float bits => cases ty <;> first | exact .float bits | exact .undef _
  | ptr p => cases ty <;> first | exact .ptr p | exact .undef _
  | vec lanes =>
    cases ty with
    | vector elem count =>
      simp only [Val.fit]
      split
      · exact .vec lanes
      · exact .undef _
    | _ => exact .undef _
  | bytes content =>
    cases ty with
    | array base len =>
      simp only [Val.fit, ← content.length_eq]
      split
      · exact .bytes content
      · exact .undef _
    | _ => exact .undef _

/-- A value seen at a type is below the value itself. -/
theorem Val.Matches.fit_left (h : v.Matches R v') (ty : Ty) : (v.fit ty).Matches R v' := by
  unfold Val.fit
  split
  · exact h
  · exact h
  · exact h
  · split
    · exact h
    · exact .undef _
  · split
    · exact h
    · exact .undef _
  · exact .undef _

/-! ## Bytes -/

theorem forall₂_wordBytes (value : BitVec 32) :
    List.Forall₂ (MByte.Matches R) (wordBytes value) (wordBytes value) := by
  refine List.forall₂_same.mpr fun b member => ?_
  obtain ⟨i, -, rfl⟩ := List.mem_map.mp member
  exact .byte _

theorem forall₂_zeroBytes (count : Nat) :
    List.Forall₂ (MByte.Matches R) (zeroBytes count) (zeroBytes count) := by
  refine List.forall₂_same.mpr fun b member => ?_
  rw [List.eq_of_mem_replicate member]
  exact .byte 0

theorem forall₂_undef {content : List MByte} (length : content.length = count) :
    List.Forall₂ (MByte.Matches R) (List.replicate count .undef) content := by
  subst length
  induction content with
  | nil => exact .nil
  | cons first rest ih => exact .cons (.undef first) ih

theorem encode_matches (h : v.Matches R v') (ty : Ty) :
    List.Forall₂ (MByte.Matches R) (encode ty v) (encode ty v') := by
  have length := encode_length ty v'
  have shaped := h.fit ty
  unfold encode at length ⊢
  generalize v.fit ty = w at shaped
  generalize v'.fit ty = w' at shaped length
  cases shaped with
  | undef w' => exact forall₂_undef length
  | int value => exact forall₂_wordBytes value
  | float bits => exact forall₂_wordBytes bits
  | @ptr p p' matches_ =>
    simp only [pointerBytes, List.forall₂_map_left_iff, List.forall₂_map_right_iff]
    exact List.forall₂_same.mpr fun i _ => .fragment i matches_
  | vec lanes =>
    refine List.forall₂_same.mpr fun b member => ?_
    obtain ⟨word, -, inside⟩ := List.mem_flatMap.mp member
    exact List.forall₂_same.mp (forall₂_wordBytes word) b inside
  | bytes content => exact content

section

variable (h : List.Forall₂ (MByte.Matches R) c c')
include h

theorem wordOf_matches {value : BitVec 32} (word : wordOf c = some value) :
    wordOf c' = some value := by
  unfold wordOf at word
  split at word
  · cases h with
    | cons ha h => cases h with
      | cons hb h => cases h with
        | cons hc h => cases h with
          | cons hd h =>
            cases h
            cases ha
            cases hb
            cases hc
            cases hd
            exact word
  · cases word

theorem wordsOf_matches {lanes : List (BitVec 32)} (words : wordsOf count c = some lanes) :
    wordsOf count c' = some lanes := by
  induction count generalizing c c' lanes with
  | zero =>
    cases h with
    | nil => exact words
    | cons _ _ => simp [wordsOf] at words
  | succ count ih =>
    simp only [wordsOf, Option.bind_eq_some_iff, Option.map_eq_some_iff] at words ⊢
    obtain ⟨first, word, rest, words', rfl⟩ := words
    exact ⟨first, wordOf_matches (List.forall₂_take 4 h) word, rest,
      ih (List.forall₂_drop 4 h) words', rfl⟩

theorem pointerOf_matches (pointer : pointerOf c = some p) :
    ∃ p', pointerOf c' = some p' ∧ p.Matches R p' := by
  unfold pointerOf at pointer
  split at pointer
  · next q i rest =>
      split at pointer
      · next whole =>
          obtain rfl := Option.some.inj pointer
          rw [whole] at h
          -- all eight parts match parts of one pointer, the renaming being functional
          obtain ⟨p', matches_⟩ : ∃ p', q.Matches R p' := by
            cases h with
            | cons first _ => cases first with
              | fragment _ matches_ => exact ⟨_, matches_⟩
          refine ⟨p', ?_, matches_⟩
          suffices c' = pointerBytes p' by rw [this, pointerOf_pointerBytes]
          have unique : ∀ {indices : List Nat} {content : List MByte},
              List.Forall₂ (MByte.Matches R) (indices.map fun i => .fragment q i) content →
                content = indices.map fun i => .fragment p' i := by
            intro indices
            induction indices with
            | nil =>
              intro content h
              cases h
              rfl
            | cons i indices ih =>
              intro content h
              cases h with
              | cons first later =>
                cases first with
                | fragment _ matches' => rw [ih later, matches'.unique matches_]; rfl
          exact unique h
      · cases pointer
  · cases pointer

theorem decode_matches (ty : Ty) : (decode ty c).Matches R (decode ty c') := by
  cases ty with
  | int32 =>
    simp only [decode]
    cases word : wordOf c with
    | none => exact .undef _
    | some value => rw [wordOf_matches h word]; exact .int value
  | float32 =>
    simp only [decode]
    cases word : wordOf c with
    | none => exact .undef _
    | some value => rw [wordOf_matches h word]; exact .float value
  | pointer base =>
    simp only [decode]
    cases pointer : pointerOf c with
    | none => exact .undef _
    | some p =>
      obtain ⟨p', pointer', matches_⟩ := pointerOf_matches h pointer
      rw [pointer']
      exact .ptr matches_
  | vector elem lanes =>
    simp only [decode]
    split
    · cases words : wordsOf lanes c with
      | none => exact .undef _
      | some content => rw [wordsOf_matches h words]; exact .vec content
    · exact .undef _
  | array base len =>
    simp only [decode, ← h.length_eq]
    split
    · exact .bytes h
    · exact .undef _
  | unit | string | argList => exact .undef _

end

end Values

/-! ## Growing renamings -/

section Mono

variable {R R' : Renaming}

theorem MByte.Matches.mono (le : ∀ {o o'}, R.rel o o' → R'.rel o o') {b b' : MByte}
    (h : b.Matches R b') : b.Matches R' b' := by
  cases h with
  | undef => exact .undef _
  | byte value => exact .byte value
  | fragment index address => exact .fragment index ⟨le address.obj, address.off⟩

theorem Val.Matches.mono (le : ∀ {o o'}, R.rel o o' → R'.rel o o') {v v' : Val}
    (h : v.Matches R v') : v.Matches R' v' := by
  cases h with
  | undef => exact .undef _
  | int value => exact .int value
  | float bits => exact .float bits
  | ptr address => exact .ptr ⟨le address.obj, address.off⟩
  | vec lanes => exact .vec lanes
  | bytes content => exact .bytes (content.imp fun _ _ => MByte.Matches.mono le)

end Mono

/-! ## Operations -/

section Operations

variable {R : Renaming} {u u' v v' w w' : Val}

variable {op : BinaryOp} {vs vs' : List Val}

/-- Only a division by zero has no result. -/
theorem foldBinary_isSome {op : BinaryOp} {a b : BitVec 32} (h : op.divides = true → b ≠ 0) :
    ∃ c, foldBinary op a b = some c := by
  cases op
  case div | rem => exact ⟨_, if_neg (h rfl)⟩
  all_goals exact ⟨_, rfl⟩

theorem lane_isSome (floats : FloatOps) (elem : Ty) {a b : BitVec 32}
    (h : op.divides = true → b ≠ 0) : ∃ c, floats.lane elem op a b = some c := by
  obtain ⟨c, folded⟩ := @foldBinary_isSome op a b h
  unfold FloatOps.lane
  split
  · split
    · exact ⟨_, rfl⟩
    · exact ⟨_, by rw [folded]; rfl⟩
  · split
    · exact ⟨_, rfl⟩
    · exact ⟨_, folded⟩

/-- A divisor that is known not to be zero leaves a result for every dividend. -/
theorem binaryVal_isSome (floats : FloatOps) (ty : Ty) {op : BinaryOp}
    (h : op.divides = true → v.nonzero = true) : ∃ r, binaryVal floats ty op u v = some r := by
  have undefined :
      ∃ r, (if op.divides = true ∧ ¬ v.nonzero = true then none else some Val.undef) = some r :=
    ⟨.undef, if_neg fun divides => divides.2 (h divides.1)⟩
  unfold binaryVal
  split
  · next a b =>
      obtain ⟨c, folded⟩ := @foldBinary_isSome op a b fun divides => by
        simpa [Val.nonzero] using h divides
      exact ⟨.int c, by rw [folded]; rfl⟩
  · split
    · exact ⟨_, rfl⟩
    · exact ⟨_, rfl⟩
  · next a b =>
      split
      · next elem _ =>
          split
          · obtain ⟨lanes, mapped⟩ := @Lib.mapM_isSome _ _
              (fun pair => floats.lane elem op pair.1 pair.2) (a.zip b) fun pair member => by
                refine lane_isSome floats elem fun divides => ?_
                have lanes := h divides
                simp only [Val.nonzero, List.all_eq_true, decide_eq_true_eq] at lanes
                exact lanes _ (List.of_mem_zip member).2
            exact ⟨.vec lanes, by rw [mapped]; rfl⟩
          · exact undefined
      · exact undefined
  · exact undefined

theorem Val.Matches.nonzero (h : v.Matches R v') (nonzero : v.nonzero = true) :
    v'.nonzero = true := by
  cases h with
  | undef => simp [Val.nonzero] at nonzero
  | int | float | ptr | vec | bytes => exact nonzero

theorem binaryVal_matches {floats : FloatOps} {ty : Ty} {r : Val} (hu : u.Matches R u')
    (hv : v.Matches R v') (h : binaryVal floats ty op u v = some r) :
    ∃ r', binaryVal floats ty op u' v' = some r' ∧ r.Matches R r' := by
  have undefined : (if op.divides = true ∧ ¬ v.nonzero = true then none else some Val.undef) =
      some r → ∃ r', binaryVal floats ty op u' v' = some r' ∧ r.Matches R r' := by
    intro result
    split at result
    · cases result
    · next notZero =>
        obtain rfl := Option.some.inj result
        obtain ⟨r', result'⟩ := @binaryVal_isSome u' v' floats ty op fun divides =>
          hv.nonzero (by_contra fun zero => notZero ⟨divides, zero⟩)
        exact ⟨r', result', .undef r'⟩
  have copied := h
  unfold binaryVal at copied
  split at copied
  · cases hu
    cases hv
    obtain ⟨c, -, rfl⟩ := Option.map_eq_some_iff.mp copied
    exact ⟨_, h, .int c⟩
  · cases hu
    cases hv
    split at copied
    · cases copied
      exact ⟨_, h, .int _⟩
    · cases copied
      exact ⟨_, h, .float _⟩
  · cases hu
    cases hv
    split at copied
    · split at copied
      · obtain ⟨lanes, -, rfl⟩ := Option.map_eq_some_iff.mp copied
        exact ⟨_, h, .vec lanes⟩
      · exact undefined copied
    · exact undefined copied
  · exact undefined copied

theorem castVal_matches (floats : FloatOps) (ty : Ty) (h : v.Matches R v') :
    (castVal floats ty v).Matches R (castVal floats ty v') := by
  cases h with
  | undef | ptr | bytes => exact .undef _
  | int value =>
    simp only [castVal]
    split
    · exact .float _
    · exact .undef _
  | float bits =>
    simp only [castVal]
    split
    · exact .int _
    · exact .undef _
  | vec lanes =>
    simp only [castVal]
    split
    · exact .vec _
    · exact .vec _
    · exact .undef _

theorem fmaVal_matches (floats : FloatOps) (ty : Ty) (hu : u.Matches R u') (hv : v.Matches R v')
    (hw : w.Matches R w') : (fmaVal floats ty u v w).Matches R (fmaVal floats ty u' v' w') := by
  unfold fmaVal
  split
  · cases hu
    cases hv
    cases hw
    exact .int _
  · cases hu
    cases hv
    cases hw
    exact .float _
  · cases hu
    cases hv
    cases hw
    simp only
    split
    · exact .vec _
    · exact .vec _
  · exact .undef _

theorem selectVal_matches (hu : u.Matches R u') (hv : v.Matches R v') (hw : w.Matches R w') :
    (selectVal u v w).Matches R (selectVal u' v' w') := by
  unfold selectVal
  split
  · cases hu
    simp only
    split
    · exact hv
    · exact hw
  · exact .undef _

theorem laneBits_matches (h : v.Matches R v') {bits : BitVec 32} (lane : laneBits v = some bits) :
    laneBits v' = some bits := by
  cases h with
  | undef | ptr | vec | bytes => simp [laneBits] at lane
  | int | float => exact lane

theorem laneVal_matches (ty : Ty) (lane : BitVec 32) :
    (laneVal ty lane).Matches R (laneVal ty lane) := by
  unfold laneVal
  split
  · exact .float lane
  · exact .int lane

theorem splatVal_matches (ty : Ty) (h : v.Matches R v') :
    (splatVal ty v).Matches R (splatVal ty v') := by
  unfold splatVal
  split
  · next lane =>
      rw [laneBits_matches h lane]
      exact .vec _
  · exact .undef _

theorem extractVal_matches (ty : Ty) (hu : u.Matches R u') (hv : v.Matches R v') :
    (extractVal ty u v).Matches R (extractVal ty u' v') := by
  unfold extractVal
  split
  · next lanes i =>
      cases hu
      cases hv
      simp only
      cases lanes[i.toNat]? with
      | none => exact .undef _
      | some lane => exact laneVal_matches ty lane
  · exact .undef _

theorem insertVal_matches (hu : u.Matches R u') (hv : v.Matches R v') (hw : w.Matches R w') :
    (insertVal u v w).Matches R (insertVal u' v' w') := by
  unfold insertVal
  split
  · cases hu
    cases hw
    simp only
    cases lane : laneBits v with
    | none => exact .undef _
    | some bits =>
      rw [laneBits_matches hv lane]
      exact .vec _
  · exact .undef _

theorem reduceVal_matches (h : v.Matches R v') : (reduceVal v).Matches R (reduceVal v') := by
  cases h with
  | vec lanes => exact .int _
  | undef | int | float | ptr | bytes => exact .undef _

theorem mapM_indexOf_matches (h : List.Forall₂ (Val.Matches R) vs vs') {offsets : List Int}
    (indices : vs.mapM indexOf = some offsets) : vs'.mapM indexOf = some offsets := by
  induction h generalizing offsets with
  | nil => exact indices
  | @cons v v' rest rest' first later ih =>
    simp only [List.mapM_cons, Option.bind_eq_bind, Option.bind_eq_some_iff, Option.pure_def,
      Option.some.injEq] at indices ⊢
    obtain ⟨i, index, is, indices, rfl⟩ := indices
    refine ⟨i, ?_, is, ih indices, rfl⟩
    cases first with
    | int value => exact index
    | undef | float | ptr | vec | bytes => simp [indexOf] at index

theorem gepVal_matches (baseTy : Ty) (h : v.Matches R v')
    (indices : List.Forall₂ (Val.Matches R) vs vs') :
    (gepVal baseTy v vs).Matches R (gepVal baseTy v' vs') := by
  unfold gepVal
  split
  · next p off offset =>
      obtain ⟨offsets, mapped, whole⟩ := Option.bind_eq_some_iff.mp offset
      rw [mapM_indexOf_matches indices mapped, Option.bind_some, whole]
      cases h with
      | ptr address => exact .ptr ⟨address.obj, by rw [address.off]⟩
  · exact .undef _

end Operations

/-! ## Memories -/

/-- The memories agree on the live objects that are kept, and different ones
correspond to different objects. -/
structure Mem.Matches (R : Renaming) (keep : Obj → Prop) (m m' : Mem) : Prop where
  size : ∀ {o o' n}, keep o → R.rel o o' → m.size o = some n → m'.size o' = some n
  byte : ∀ {o o'}, keep o → R.rel o o' → m.size o ≠ none → ∀ i,
    (m.byte o i).Matches R (m'.byte o' i)
  apart : ∀ {o₁ o₂ o'}, keep o₁ → keep o₂ → m.size o₁ ≠ none → m.size o₂ ≠ none →
    R.rel o₁ o' → R.rel o₂ o' → o₁ = o₂

namespace Mem.Matches

variable {R : Renaming} {keep : Obj → Prop} {m m' : Mem}

variable {p p' : Ptr} {count : Nat}

theorem valid (h : m.Matches R keep m') (kept : keep p.obj) (address : p.Matches R p')
    (valid : m.Valid p count) : m'.Valid p' count := by
  obtain ⟨size, live, lower, upper⟩ := valid
  exact ⟨size, h.size kept address.obj live, address.off ▸ lower, address.off ▸ upper⟩

theorem live_of_valid (valid : m.Valid p count) : m.size p.obj ≠ none := by
  obtain ⟨size, live, -⟩ := valid
  rw [Option.mem_def.mp live]
  simp

theorem read (h : m.Matches R keep m') (kept : keep p.obj) (address : p.Matches R p')
    {content : List MByte} (read : m.read p count = some content) :
    ∃ content', m'.read p' count = some content' ∧
      List.Forall₂ (MByte.Matches R) content content' := by
  obtain ⟨valid, rfl⟩ := Mem.read_eq_some.mp read
  refine ⟨_, Mem.read_eq_some.mpr ⟨h.valid kept address valid, rfl⟩, ?_⟩
  simp only [Mem.bytesAt, List.forall₂_map_left_iff, List.forall₂_map_right_iff]
  refine List.forall₂_same.mpr fun i _ => ?_
  rw [← address.off]
  exact h.byte kept address.obj (live_of_valid valid) _

theorem write (h : m.Matches R keep m') {p p' : Ptr} (kept : keep p.obj) (address : p.Matches R p')
    {content content' : List MByte} (same : List.Forall₂ (MByte.Matches R) content content')
    {m₁ : Mem} (write : m.write p content = some m₁) :
    ∃ m₁', m'.write p' content' = some m₁' ∧ m₁.Matches R keep m₁' := by
  obtain ⟨valid, rfl⟩ := Mem.write_eq_some.mp write
  have valid' := h.valid kept address valid
  rw [same.length_eq] at valid'
  refine ⟨_, Mem.write_eq_some.mpr ⟨valid', rfl⟩, ⟨h.size, ?_, h.apart⟩⟩
  intro o o' kept' rel live i
  simp only [Mem.overwrite, ← address.off]
  have old := h.byte kept' rel live i
  by_cases inside : o = p.obj ∧ p.off.toNat ≤ i
  · have inside' : o' = p'.obj ∧ p.off.toNat ≤ i := by
      obtain ⟨rfl, above⟩ := inside
      exact ⟨R.functional rel address.obj, above⟩
    rw [if_pos inside, if_pos inside']
    rcases Nat.lt_or_ge (i - p.off.toNat) content.length with lt | ge
    · have lt' : i - p.off.toNat < content'.length := same.length_eq ▸ lt
      rw [List.getElem?_eq_getElem lt, List.getElem?_eq_getElem lt']
      exact (List.forall₂_iff_get.mp same).2 _ lt lt'
    · have ge' : content'.length ≤ i - p.off.toNat := same.length_eq ▸ ge
      rw [List.getElem?_eq_none_iff.mpr ge, List.getElem?_eq_none_iff.mpr ge']
      exact old
  · have outside' : ¬ (o' = p'.obj ∧ p.off.toNat ≤ i) := by
      rintro ⟨rfl, above⟩
      have same := h.apart kept' kept live (live_of_valid valid) rel address.obj
      exact inside ⟨same, above⟩
    rw [if_neg inside, if_neg outside']
    exact old

end Mem.Matches

/-! ## One instruction -/

/-- The values computed in one run match those computed in the other. -/
def Env.Matches (R : Renaming) (env env' : Env) : Prop :=
  ∀ inst v, env inst = some v → ∃ v', env' inst = some v' ∧ v.Matches R v'

theorem Env.Matches.mono {R' : Renaming} (le : ∀ {o o'}, R.rel o o' → R'.rel o o')
    (h : env.Matches R env') : env.Matches R' env' := by
  intro inst v value
  obtain ⟨v', value', same⟩ := h inst v value
  exact ⟨v', value', same.mono le⟩

theorem Env.Matches.define (h : env.Matches R env') {inst : Inst} {v v' : Val}
    (same : v.Matches R v') :
    Env.Matches R (Function.update env inst (some v)) (Function.update env' inst (some v')) := by
  intro i w value
  by_cases isInst : i = inst
  · subst isInst
    rw [Function.update_self] at value ⊢
    obtain rfl := Option.some.inj value
    exact ⟨v', rfl, same⟩
  · rw [Function.update_of_ne isInst] at value ⊢
    exact h i w value

inductive Effect.Matches (R : Renaming) (keep : Obj → Prop) : Effect → Effect → Prop where
  | value {v v' : Val} (h : v.Matches R v') : Matches R keep (.value v) (.value v')
  | write {m m' : Mem} (h : m.Matches R keep m') : Matches R keep (.write m) (.write m')
  | goto {target : BasicBlock} {args args' : List Val}
      (h : List.Forall₂ (Val.Matches R) args args') :
      Matches R keep (.goto target args) (.goto target args')
  | call {callee : Function} {args args' : List Val}
      (h : List.Forall₂ (Val.Matches R) args args') :
      Matches R keep (.call callee args) (.call callee args')
  | tailCall {callee : Function} {args args' : List Val}
      (h : List.Forall₂ (Val.Matches R) args args') :
      Matches R keep (.tailCall callee args) (.tailCall callee args')
  | ret {value value' : Option Val}
      (h : (value.getD .undef).Matches R (value'.getD .undef)) :
      Matches R keep (.ret value) (.ret value')

namespace Ctx

variable {X : Ctx} {R : Renaming} {keep : Obj → Prop} {F F' : FunctionData} {env env' : Env}

/-- The object a memory instruction accesses. -/
def touches (X : Ctx) (F : FunctionData) (env : Env) : InstKind → Option Obj
  | .load src => (X.address F env src).map Ptr.obj
  | .store _ dest => (X.address F env dest).map Ptr.obj
  | .memZero dest _ => (X.address F env dest).map Ptr.obj
  | _ => none

/-- An operand has a matching value in the other function, and the same type. -/
structure OperandMatches (X : Ctx) (R : Renaming) (F : FunctionData) (env : Env) (F' : FunctionData)
    (env' : Env) (inst : Inst) : Prop where
  value : ∀ {v}, X.operand F env inst = some v →
    ∃ v', X.operand F' env' inst = some v' ∧ v.Matches R v'
  ty : ∀ {v data}, X.operand F env inst = some v → X.instData F inst = some data →
    ∃ data', X.instData F' inst = some data' ∧ data'.ty = data.ty

/-- The instruction is not in the arena, or has no value of its own. -/
def Opaque (F : FunctionData) (inst : Inst) : Prop :=
  ∀ data, F.insts inst = some data → isConst data.kind = false

variable {inst : Inst} {v : Val}

theorem zeroVal_matches (R : Renaming) (ty : Ty) : (zeroVal ty).Matches R (zeroVal ty) := by
  cases ty with
  | int32 => exact .int 0
  | float32 => exact .float 0
  | vector elem lanes => exact .vec _
  | array base len => exact .bytes (forall₂_zeroBytes _)
  | unit | string | pointer | argList => exact .undef _

/-- A constant has no part of a pointer. -/
theorem constBytes_matches (R : Renaming) {data : Inst → Option InstData} {ty : Ty}
    {content : List MByte} (h : constBytes data ty inst = some content) :
    ∀ b ∈ content, b.Matches R b := by
  have scalar : ∀ {ty v content}, v.Matches R v → some (encode ty v) = some content →
      ∀ b ∈ content, b.Matches R b := by
    intro ty v content self same
    obtain rfl := Option.some.inj same
    exact List.forall₂_same.mp (encode_matches self ty)
  induction ty generalizing inst content with
  | array base len ih =>
    simp only [constBytes] at h
    split at h
    · obtain ⟨parts, mapped, rfl⟩ := Option.map_eq_some_iff.mp h
      intro b member
      obtain ⟨part, isPart, inside⟩ := List.mem_flatten.mp member
      obtain ⟨i, lt, rfl⟩ := List.getElem_of_mem isPart
      obtain ⟨length, found⟩ := List.forall₂_iff_get.mp (Lib.forall₂_of_mapM mapped)
      exact ih (found i (length ▸ lt) lt) b inside
    · obtain rfl := Option.some.inj h
      exact List.forall₂_same.mp (forall₂_zeroBytes _)
    · obtain rfl := Option.some.inj h
      intro b member
      rw [List.eq_of_mem_replicate member]
      exact .undef _
    · cases h
  | _ =>
    simp only [constBytes] at h
    split at h
    · exact scalar (.int _) h
    · exact scalar (.float _) h
    · exact scalar (zeroVal_matches R _) h
    · exact scalar (.undef _) h
    · cases h

theorem constVal_matches (R : Renaming) {data : InstData} (h : X.constVal F inst data = some v) :
    v.Matches R v := by
  unfold constVal at h
  split at h
  · cases h
    exact .undef _
  · cases h
    exact zeroVal_matches R _
  · cases h
    exact .int _
  · cases h
    exact .float _
  · cases h
    exact .ptr ⟨R.globals _, rfl⟩
  · obtain ⟨content, found, rfl⟩ := Option.map_eq_some_iff.mp h
    exact .bytes (List.forall₂_same.mpr (constBytes_matches R found))
  · cases h

/-- Operands match when the environments do and the functions differ only in
instructions without a value. -/
theorem OperandMatches.of_env (envs : env.Matches R env')
    (same : ∀ i, F'.insts i = F.insts i ∨ env i = none ∧ Opaque F i ∧ Opaque F' i) (inst : Inst) :
    X.OperandMatches R F env F' env' inst := by
  have constants : ∀ data, X.constVal F' inst data = X.constVal F inst data := by
    intro data
    unfold constVal
    split <;> try rfl
    refine congrArg _ (constBytes_congr (fun i => ?_) data.ty inst)
    unfold Ctx.instData
    by_cases isGlobal : i.isGlobal = true
    · simp [isGlobal]
    · simp only [isGlobal]
      exact (same i).imp_right fun h => ⟨h.2.1, h.2.2⟩
  have unchanged : ∀ {v}, X.operand F env inst = some v →
      X.instData F' inst = X.instData F inst := by
    intro v value
    unfold Ctx.instData
    by_cases isGlobal : inst.isGlobal = true
    · simp [isGlobal]
    · simp only [isGlobal]
      rcases same inst with same | ⟨unset, noConst, -⟩
      · exact same
      · simp only [Ctx.operand, Ctx.instData, isGlobal] at value
        split at value
        · cases value
        · next data found =>
            simp [noConst data found, unset] at value
  refine ⟨fun {v} value => ?_, fun value found => ⟨_, by rw [unchanged value, found], rfl⟩⟩
  have sameData := unchanged value
  simp only [Ctx.operand, sameData] at value ⊢
  split at value
  · cases value
  · next data found =>
      split at value
      · next isConstant =>
          simp only [isConstant, if_true, constants]
          exact ⟨v, value, constVal_matches R value⟩
      · next notConstant =>
          simp only [notConstant]
          exact envs inst v value

theorem operands_matches {insts : List Inst}
    (h : ∀ inst ∈ insts, X.OperandMatches R F env F' env' inst) {args : List Val}
    (values : X.operands F env insts = some args) :
    ∃ args', X.operands F' env' insts = some args' ∧ List.Forall₂ (Val.Matches R) args args' := by
  induction insts generalizing args with
  | nil =>
    obtain rfl : args = [] := by simpa [operands] using values.symm
    exact ⟨[], rfl, .nil⟩
  | cons first rest ih =>
    simp only [operands, List.mapM_cons, Option.bind_eq_bind, Option.bind_eq_some_iff,
      Option.pure_def, Option.some.injEq] at values
    obtain ⟨v, value, vs, values, rfl⟩ := values
    obtain ⟨v', value', same⟩ := (h first (by simp)).value value
    obtain ⟨vs', values', sames⟩ := ih (fun inst member => h inst (by simp [member])) values
    refine ⟨v' :: vs', ?_, .cons same sames⟩
    simp only [operands] at values'
    simp [operands, value', values']

theorem address_matches (h : X.OperandMatches R F env F' env' inst) {p : Ptr}
    (address : X.address F env inst = some p) :
    ∃ p', X.address F' env' inst = some p' ∧ p.Matches R p' := by
  unfold Ctx.address at address
  split at address
  · next q value =>
      obtain rfl := Option.some.inj address
      obtain ⟨v', value', same⟩ := h.value value
      cases same with
      | @ptr _ p' same => exact ⟨p', by simp [Ctx.address, value'], same⟩
  · cases address

theorem zeroLength_matches {len : MemZeroLen}
    (h : ∀ inst, len = .value inst → X.OperandMatches R F env F' env' inst) {count : Nat}
    (length : X.zeroLength F env len = some count) : X.zeroLength F' env' len = some count := by
  cases len with
  | const bytes => exact length
  | value inst =>
    simp only [Ctx.zeroLength] at length
    split at length
    · next value isInt =>
        obtain ⟨v', value', same⟩ := (h inst rfl).value isInt
        obtain rfl := same.int_eq
        simp only [Ctx.zeroLength, value']
        exact length
    · cases length

theorem pureVal_matches {data : InstData}
    (h : ∀ inst ∈ data.kind.instUsage, X.OperandMatches R F env F' env' inst)
    (value : X.pureVal F env data = some v) :
    ∃ v', X.pureVal F' env' data = some v' ∧ v.Matches R v' := by
  obtain ⟨ty, kind⟩ := data
  cases kind
  case binary op lhs rhs =>
      simp only [Ctx.pureVal, Option.bind_eq_bind, Option.bind_eq_some_iff] at value
      obtain ⟨a, ha, b, hb, result⟩ := value
      obtain ⟨a', ha', sameA⟩ := (h lhs (by simp [InstKind.instUsage])).value ha
      obtain ⟨b', hb', sameB⟩ := (h rhs (by simp [InstKind.instUsage])).value hb
      simpa [Ctx.pureVal, ha', hb'] using binaryVal_matches sameA sameB result
  case select cond ifTrue ifFalse =>
      simp only [Ctx.pureVal, Option.bind_eq_bind, Option.bind_eq_some_iff,
        Option.some.injEq] at value
      obtain ⟨c, hc, t, ht, e, he, rfl⟩ := value
      obtain ⟨c', hc', sameC⟩ := (h cond (by simp [InstKind.instUsage])).value hc
      obtain ⟨t', ht', sameT⟩ := (h ifTrue (by simp [InstKind.instUsage])).value ht
      obtain ⟨e', he', sameE⟩ := (h ifFalse (by simp [InstKind.instUsage])).value he
      exact ⟨_, by simp [Ctx.pureVal, hc', ht', he'], selectVal_matches sameC sameT sameE⟩
  case cast src =>
      simp only [Ctx.pureVal, Option.bind_eq_bind, Option.bind_eq_some_iff,
        Option.some.injEq] at value
      obtain ⟨a, ha, rfl⟩ := value
      obtain ⟨a', ha', sameA⟩ := (h src (by simp [InstKind.instUsage])).value ha
      exact ⟨_, by simp [Ctx.pureVal, ha'], castVal_matches _ _ sameA⟩
  case getElemPtr base offsets =>
      simp only [Ctx.pureVal, Option.bind_eq_bind, Option.bind_eq_some_iff,
        Option.some.injEq] at value
      obtain ⟨d, hd, b, hb, os, hos, rfl⟩ := value
      have baseMatches := h base (by simp [InstKind.instUsage])
      obtain ⟨d', hd', ty⟩ := baseMatches.ty hb hd
      obtain ⟨b', hb', sameB⟩ := baseMatches.value hb
      obtain ⟨os', hos', sames⟩ := operands_matches
        (fun inst member => h inst (by simp [InstKind.instUsage, member])) hos
      exact ⟨_, by simp [Ctx.pureVal, hd', hb', hos', ty], gepVal_matches _ sameB sames⟩
  case fma acc lhs rhs =>
      simp only [Ctx.pureVal, Option.bind_eq_bind, Option.bind_eq_some_iff,
        Option.some.injEq] at value
      obtain ⟨c, hc, a, ha, b, hb, rfl⟩ := value
      obtain ⟨c', hc', sameC⟩ := (h acc (by simp [InstKind.instUsage])).value hc
      obtain ⟨a', ha', sameA⟩ := (h lhs (by simp [InstKind.instUsage])).value ha
      obtain ⟨b', hb', sameB⟩ := (h rhs (by simp [InstKind.instUsage])).value hb
      exact ⟨_, by simp [Ctx.pureVal, hc', ha', hb'], fmaVal_matches _ _ sameC sameA sameB⟩
  case vectorSplat src =>
      simp only [Ctx.pureVal, Option.bind_eq_bind, Option.bind_eq_some_iff,
        Option.some.injEq] at value
      obtain ⟨a, ha, rfl⟩ := value
      obtain ⟨a', ha', sameA⟩ := (h src (by simp [InstKind.instUsage])).value ha
      exact ⟨_, by simp [Ctx.pureVal, ha'], splatVal_matches _ sameA⟩
  case vectorExtractElement src index =>
      simp only [Ctx.pureVal, Option.bind_eq_bind, Option.bind_eq_some_iff,
        Option.some.injEq] at value
      obtain ⟨a, ha, i, hi, rfl⟩ := value
      obtain ⟨a', ha', sameA⟩ := (h src (by simp [InstKind.instUsage])).value ha
      obtain ⟨i', hi', sameI⟩ := (h index (by simp [InstKind.instUsage])).value hi
      exact ⟨_, by simp [Ctx.pureVal, ha', hi'], extractVal_matches _ sameA sameI⟩
  case vectorInsertElement vector element index =>
      simp only [Ctx.pureVal, Option.bind_eq_bind, Option.bind_eq_some_iff,
        Option.some.injEq] at value
      obtain ⟨a, ha, e, he, i, hi, rfl⟩ := value
      obtain ⟨a', ha', sameA⟩ := (h vector (by simp [InstKind.instUsage])).value ha
      obtain ⟨e', he', sameE⟩ := (h element (by simp [InstKind.instUsage])).value he
      obtain ⟨i', hi', sameI⟩ := (h index (by simp [InstKind.instUsage])).value hi
      exact ⟨_, by simp [Ctx.pureVal, ha', he', hi'], insertVal_matches sameA sameE sameI⟩
  case vectorReduce src =>
      simp only [Ctx.pureVal, Option.bind_eq_bind, Option.bind_eq_some_iff,
        Option.some.injEq] at value
      obtain ⟨a, ha, rfl⟩ := value
      obtain ⟨a', ha', sameA⟩ := (h src (by simp [InstKind.instUsage])).value ha
      exact ⟨_, by simp [Ctx.pureVal, ha'], reduceVal_matches sameA⟩
  all_goals simp [Ctx.pureVal] at value

end Ctx

section Exec

variable {X : Ctx} {R : Renaming} {keep : Obj → Prop} {F F' : FunctionData} {a a' : Activation}
  {m m' : Mem} {inst : Inst} {data : InstData}

/-- The same instruction has matching effects in both runs. -/
theorem exec_matches (hd : F.insts inst = some data) (hd' : F'.insts inst = some data)
    (operands : ∀ i ∈ data.kind.instUsage, X.OperandMatches R F a.env F' a'.env i)
    (own : data.kind = .alloc → R.rel (.stack a.frame a.func inst) (.stack a'.frame a'.func inst))
    (memory : m.Matches R keep m') (kept : ∀ {o}, X.touches F a.env data.kind = some o → keep o)
    {e : Effect} (h : exec X F a m inst = some e) :
    ∃ e', exec X F' a' m' inst = some e' ∧ e.Matches R keep e' := by
  obtain ⟨ty, kind⟩ := data
  cases kind
  case jump target args =>
      simp only [exec, hd, Option.map_eq_some_iff] at h
      obtain ⟨vs, values, rfl⟩ := h
      obtain ⟨vs', values', sames⟩ := @Ctx.operands_matches _ _ _ _ _ _ args operands _ values
      exact ⟨_, by simp only [exec, hd', values']; rfl, .goto sames⟩
  case branch cond t tArgs e fArgs =>
      simp only [exec, hd] at h
      split at h
      · next c value =>
          obtain ⟨c', value', same⟩ := (operands cond (by simp [InstKind.instUsage])).value value
          obtain rfl := same.int_eq
          by_cases nonzero : c ≠ 0
          · rw [if_pos nonzero, Option.map_eq_some_iff] at h
            obtain ⟨vs, values, rfl⟩ := h
            obtain ⟨vs', values', sames⟩ := Ctx.operands_matches
              (fun i member => operands i (by simp [InstKind.instUsage, member])) values
            exact ⟨_, by simp only [exec, hd', value', if_pos nonzero, values']; rfl, .goto sames⟩
          · rw [if_neg nonzero, Option.map_eq_some_iff] at h
            obtain ⟨vs, values, rfl⟩ := h
            obtain ⟨vs', values', sames⟩ := Ctx.operands_matches
              (fun i member => operands i (by simp [InstKind.instUsage, member])) values
            exact ⟨_, by simp only [exec, hd', value', if_neg nonzero, values']; rfl, .goto sames⟩
      · cases h
  case ret value =>
      cases value with
      | none =>
        simp only [exec, hd, Option.some.injEq] at h
        subst h
        exact ⟨.ret none, by simp [exec, hd'], .ret (.undef _)⟩
      | some returned =>
        simp only [exec, hd, Option.map_eq_some_iff] at h
        obtain ⟨v, value, rfl⟩ := h
        obtain ⟨v', value', same⟩ :=
          (operands returned (by simp [InstKind.instUsage])).value value
        exact ⟨.ret (some v'), by simp [exec, hd', value'], .ret same⟩
  case alloc =>
      simp only [exec, hd, Option.some.injEq] at h
      subst h
      refine ⟨.value (.ptr ⟨.stack a'.frame a'.func inst, 0⟩), by simp [exec, hd'], ?_⟩
      exact .value (.ptr ⟨own rfl, rfl⟩)
  case store src dest =>
      simp only [exec, hd, Option.bind_eq_bind, Option.bind_eq_some_iff,
        Option.map_eq_some_iff] at h
      obtain ⟨v, value, p, address, d, srcData, m₁, written, rfl⟩ := h
      have srcMatches := operands src (by simp [InstKind.instUsage])
      obtain ⟨v', value', same⟩ := srcMatches.value value
      obtain ⟨d', srcData', ty'⟩ := srcMatches.ty value srcData
      obtain ⟨p', address', sameP⟩ :=
        Ctx.address_matches (operands dest (by simp [InstKind.instUsage])) address
      obtain ⟨m₁', written', memory'⟩ := memory.write
        (kept (by simp [Ctx.touches, address])) sameP (encode_matches same d.ty) written
      exact ⟨_, by simp [exec, hd', value', address', srcData', ty', written'], .write memory'⟩
  case memZero dest byteLen =>
      simp only [exec, hd, Option.bind_eq_bind, Option.bind_eq_some_iff,
        Option.map_eq_some_iff] at h
      obtain ⟨p, address, count, length, m₁, written, rfl⟩ := h
      have destMatches := operands dest (by cases byteLen <;> simp [InstKind.instUsage])
      obtain ⟨p', address', sameP⟩ := Ctx.address_matches destMatches address
      have length' : X.zeroLength F' a'.env byteLen = some count := by
        refine Ctx.zeroLength_matches (fun i isValue => operands i ?_) length
        rw [isValue]
        simp [InstKind.instUsage]
      obtain ⟨m₁', written', memory'⟩ := memory.write
        (kept (by simp [Ctx.touches, address])) sameP (forall₂_zeroBytes count) written
      exact ⟨_, by simp [exec, hd', address', length', written'], .write memory'⟩
  case load src =>
      simp only [exec, hd, Option.bind_eq_bind, Option.bind_eq_some_iff,
        Option.map_eq_some_iff] at h
      obtain ⟨p, address, content, read, rfl⟩ := h
      obtain ⟨p', address', sameP⟩ :=
        Ctx.address_matches (operands src (by simp [InstKind.instUsage])) address
      obtain ⟨content', read', sames⟩ := memory.read
        (kept (by simp [Ctx.touches, address])) sameP read
      exact ⟨_, by simp [exec, hd', address', read'], .value (decode_matches sames ty)⟩
  case call callee args =>
      simp only [exec, hd, Option.map_eq_some_iff] at h
      obtain ⟨vs, values, rfl⟩ := h
      obtain ⟨vs', values', sames⟩ := @Ctx.operands_matches _ _ _ _ _ _ args operands _ values
      exact ⟨_, by simp only [exec, hd', values']; rfl, .call sames⟩
  case tailCall callee args =>
      simp only [exec, hd, Option.map_eq_some_iff] at h
      obtain ⟨vs, values, rfl⟩ := h
      obtain ⟨vs', values', sames⟩ := @Ctx.operands_matches _ _ _ _ _ _ args operands _ values
      exact ⟨_, by simp only [exec, hd', values']; rfl, .tailCall sames⟩
  all_goals
    simp only [exec, hd, Option.map_eq_some_iff] at h
    obtain ⟨v, value, rfl⟩ := h
    obtain ⟨v', value', same⟩ := Ctx.pureVal_matches operands value
    exact ⟨_, by simp [exec, hd', value'], .value (same.fit ty)⟩

/-- Entering a block on matching arguments gives matching environments. -/
theorem bindParams_matches {env env' : Env} (envs : env.Matches R env')
    {params : List Inst} (sameData : ∀ param ∈ params, F'.insts param = F.insts param)
    {args args' : List Val} (sames : List.Forall₂ (Val.Matches R) args args') :
    (bindParams F env params args).Matches R (bindParams F' env' params args') := by
  induction params generalizing args args' with
  | nil => cases sames <;> exact envs
  | cons param params ih =>
    cases sames with
    | nil => exact envs
    | @cons v v' vs vs' first later =>
      intro inst w value
      simp only [bindParams] at value ⊢
      have rest := ih (fun p member => sameData p (by simp [member])) later
      by_cases same : inst = param
      · subst same
        rw [Function.update_self] at value ⊢
        obtain ⟨d, hd, rfl⟩ := Option.map_eq_some_iff.mp value
        exact ⟨_, by rw [sameData inst (by simp), hd]; rfl, first.fit d.ty⟩
      · rw [Function.update_of_ne same] at value ⊢
        exact rest inst w value

end Exec

/-! ## External functions -/

/-- What holds of the functions of the runtime library: they reach memory only
through the pointers they are given, do not look at addresses or at undefined
values, and allocate and free nothing. -/
structure Externals.Respects {World : Type} (externals : Externals World) : Prop where
  call : ∀ {R : Renaming} {keep : Obj → Prop} {m m' m₁ : Mem} {args args' : List Val}
    {name : String} {world world₁ : World} {v : Option Val}, m.Matches R keep m' →
    List.Forall₂ (Val.Matches R) args args' → (∀ p, Val.ptr p ∈ args → keep p.obj) →
    externals name args m world = some (v, m₁, world₁) →
    ∃ v' m₁', externals name args' m' world = some (v', m₁', world₁) ∧
      (v.getD .undef).Matches R (v'.getD .undef) ∧ m₁.Matches R keep m₁' ∧
      m₁.size = m.size ∧ m₁'.size = m'.size

theorem mulmodBuiltin_matches (same : List.Forall₂ (Val.Matches R) args args') {v : Val}
    (h : mulmodBuiltin args = some v) : mulmodBuiltin args' = some v ∧ v.Matches R v := by
  unfold mulmodBuiltin at h
  split at h
  · next a b p =>
      cases same with
      | cons ha same => cases same with
        | cons hb same => cases same with
          | cons hp same =>
            cases same
            cases ha
            cases hb
            cases hp
            obtain rfl := Option.some.inj h
            exact ⟨rfl, .int _⟩
  · cases h

theorem callExternal_respects {World : Type} {externals : Externals World}
    (respects : externals.Respects) {keep : Obj → Prop} {m m' m₁ : Mem} {name : String}
    {world world₁ : World} {v : Option Val} (memory : m.Matches R keep m')
    (same : List.Forall₂ (Val.Matches R) args args') (kept : ∀ p, Val.ptr p ∈ args → keep p.obj)
    (h : callExternal externals name args m world = some (v, m₁, world₁)) :
    ∃ v' m₁', callExternal externals name args' m' world = some (v', m₁', world₁) ∧
      (v.getD .undef).Matches R (v'.getD .undef) ∧ m₁.Matches R keep m₁' ∧
      m₁.size = m.size ∧ m₁'.size = m'.size := by
  unfold callExternal at h ⊢
  split at h
  · next isBuiltin =>
      obtain ⟨r, result, whole⟩ := Option.map_eq_some_iff.mp h
      obtain ⟨rfl, rfl, rfl⟩ : some r = v ∧ m = m₁ ∧ world = world₁ := by simpa using whole
      obtain ⟨result', self⟩ := mulmodBuiltin_matches same result
      exact ⟨some r, m', by simp [result', isBuiltin], self, memory, rfl, rfl⟩
  · next notBuiltin =>
      rw [if_neg notBuiltin]
      exact respects.call memory same kept h

end AnonCompiler.Ir
