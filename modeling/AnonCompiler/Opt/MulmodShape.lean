import AnonCompiler.Opt.MulmodRecognize

/-!
# What the matcher establishes

`Matched` lists what an accepted function is known to consist of: the kinds of its
instructions and the operands of the matched ones.  Nothing is known about the
blocks the branches lead to, and nothing about the shift amount of the halving
chain `sar(add(b, shr(b, 31)), k)`.
-/

set_option autoImplicit false

namespace AnonCompiler.Opt.Mulmod

open Ir

/-- The accepted forms of `b / 2`. -/
inductive HalfForm (F : FunctionData) (b half : Inst) : Prop where
  | sar {k : Inst} (shape : binaryOf F half = some (.sar, b, k)) (one : constI32 F k = some 1)
  | chain {x k r k31 : Inst} (shape : binaryOf F half = some (.sar, x, k))
      (sum : binaryOf F x = some (.add, b, r)) (sign : binaryOf F r = some (.shr, b, k31))
      (amount : constI32 F k31 = some 31)
  | div {k : Inst} (shape : binaryOf F half = some (.div, b, k)) (two : constI32 F k = some 2)

/-- The kinds of instructions an accepted function has in its layout. -/
inductive Allowed (F : FunctionData) (f : Function) (inst : Inst) : Prop where
  | call {args : List Inst} (kind : F.kind inst = some (.call f args))
  | ret {value : Option Inst} (kind : F.kind inst = some (.ret value))
  | branch {cond : Inst} {t e : BasicBlock} (kind : F.kind inst = some (.branch cond t [] e []))
  | jump {target : BasicBlock} (kind : F.kind inst = some (.jump target []))
  | binary {op : BinaryOp} {l r : Inst} (kind : F.kind inst = some (.binary op l r))
  | integer {value : BitVec 32} (kind : F.kind inst = some (.integer value))
  | blockArgRef {index : Nat} (kind : F.kind inst = some (.blockArgRef index))

structure Matched (F : FunctionData) (f : Function) (s : Shape) : Prop where
  retTy : F.retTy = .int32
  entry : F.entryBlock.isSome = true
  params : F.params = [s.a, s.b]
  intParams : ∀ param ∈ F.params, ∃ data, F.insts param = some data ∧ data.ty = .int32
  kinds : ∀ inst ∈ F.layoutInsts, Allowed F f inst
  call : F.kind s.selfCall = some (.call f [s.a, s.half])
  half : HalfForm F s.b s.half
  doubleAdd : binaryOf F s.doubleAdd = some (.add, s.selfCall, s.selfCall)
  double : ∃ k, binaryOf F s.double = some (.rem, s.doubleAdd, k) ∧ constI32 F k = some s.modulus
  modulus_pos : 0 < s.modulus.toInt
  oddAdd : binaryOf F s.oddAdd = some (.add, s.double, s.a) ∨
    binaryOf F s.oddAdd = some (.add, s.a, s.double)

variable {F : FunctionData} {f : Function} {acc : Scan}

theorem halfForm_of_halfBinaries {b half : Inst} {found : List Inst × List Inst}
    (h : halfBinaries F b half = some found) : HalfForm F b half := by
  unfold halfBinaries at h
  split at h
  · next x k shape =>
      split at h
      · next direct =>
          obtain ⟨rfl, one⟩ := direct
          exact .sar shape one
      · split at h
        · next l r sum =>
            split at h
            · next same =>
                subst same
                split at h
                · next s' k31 sign =>
                    split at h
                    · next amount =>
                        obtain ⟨rfl, amount⟩ := amount
                        exact .chain shape sum sign amount
                    · cases h
                · cases h
            · cases h
        · cases h
  · next x k shape =>
      split at h
      · next direct =>
          obtain ⟨rfl, two⟩ := direct
          exact .div shape two
      · cases h
  · cases h

/-- One scanned instruction is allowed, and the remembered call is a self call. -/
theorem scanInst_allowed {inst : Inst} {next : Scan} (h : scanInst F f acc inst = some next) :
    Allowed F f inst ∧ ∀ call, next.selfCall = some call →
      acc.selfCall = some call ∨ ∃ args, F.kind call = some (.call f args) := by
  unfold scanInst at h
  split at h
  case h_1 callee args kind =>
    split at h
    · next same =>
        subst same
        obtain rfl := Option.some.inj h
        refine ⟨.call kind, fun call same => .inr ⟨args, ?_⟩⟩
        rw [← Option.some.inj same]
        exact kind
    · cases h
  case h_2 value kind =>
    obtain rfl := Option.some.inj h
    exact ⟨.ret kind, fun _ => .inl⟩
  case h_3 cond t tArgs e fArgs kind =>
    split at h
    · next noArgs =>
        obtain ⟨rfl, rfl⟩ := noArgs
        obtain rfl := Option.some.inj h
        exact ⟨.branch kind, fun _ => .inl⟩
    · cases h
  case h_4 target args kind =>
    split at h
    · next noArgs =>
        subst noArgs
        obtain rfl := Option.some.inj h
        exact ⟨.jump kind, fun _ => .inl⟩
    · cases h
  case h_5 op l r kind =>
    obtain rfl := Option.some.inj h
    exact ⟨.binary kind, fun _ => .inl⟩
  case h_6 value kind =>
    obtain rfl := Option.some.inj h
    exact ⟨.integer kind, fun _ => .inl⟩
  case h_7 index kind =>
    obtain rfl := Option.some.inj h
    exact ⟨.blockArgRef kind, fun _ => .inl⟩
  case h_8 => cases h

theorem scan_allowed {insts : List Inst} {found : Scan}
    (h : insts.foldlM (scanInst F f) acc = some found) :
    (∀ inst ∈ insts, Allowed F f inst) ∧ ∀ call, found.selfCall = some call →
      acc.selfCall = some call ∨ ∃ args, F.kind call = some (.call f args) := by
  induction insts generalizing acc with
  | nil =>
    obtain rfl : acc = found := by simpa using h
    exact ⟨by simp, fun call same => .inl same⟩
  | cons inst rest ih =>
    rw [List.foldlM_cons, Option.bind_eq_bind, Option.bind_eq_some_iff] at h
    obtain ⟨next, first, later⟩ := h
    obtain ⟨allowed, fromFirst⟩ := scanInst_allowed first
    obtain ⟨kinds, calls⟩ := ih later
    refine ⟨fun i member => ?_, fun call same => ?_⟩
    · rcases List.mem_cons.mp member with rfl | later
      · exact allowed
      · exact kinds i later
    · rcases calls call same with before | isCall
      · exact fromFirst call before
      · exact .inr isCall

theorem findDouble_eq_some {binaries : List Inst} {doubleAdd double : Inst} {modulus : BitVec 32}
    (h : findDouble F binaries doubleAdd = some (double, modulus)) :
    0 < modulus.toInt ∧
      ∃ k, binaryOf F double = some (.rem, doubleAdd, k) ∧ constI32 F k = some modulus := by
  obtain ⟨inst, -, found⟩ := List.exists_of_findSome?_eq_some h
  split at found
  · next l r shape =>
      split at found
      · next same =>
          subst same
          split at found
          · next p isConst =>
              split at found
              · next pos =>
                  cases found
                  exact ⟨pos, r, shape, isConst⟩
              · cases found
          · cases found
      · cases found
  · cases found

/-- Everything the proof uses of an accepted function. -/
theorem matched_of_matchShape {P : Program} {s : Shape} (h : matchShape P f = some s) :
    ∃ F, P.funcData f = some F ∧ Matched F f s := by
  simp only [matchShape, Option.bind_eq_bind] at h
  obtain ⟨F, data, h⟩ := Option.bind_eq_some_iff.mp h
  obtain ⟨_, checked, h⟩ := Option.bind_eq_some_iff.mp h
  refine ⟨F, data, ?_⟩
  split at h
  case h_2 => cases h
  case h_1 a b params =>
    simp only [Option.bind_eq_some_iff] at h
    obtain ⟨aData, ha, bData, hb, _, types, found, scanned, selfCall, isCall, h⟩ := h
    split at h
    case h_2 => cases h
    case h_1 callee a' half call =>
      simp only [Option.bind_eq_some_iff, Prod.exists] at h
      obtain ⟨_, sameA, bins, users, halfBins, doubleAdd, foundDoubleAdd, double, modulus,
        foundDouble, oddAdd, foundOddAdd, returns, classifiedReturns, -, three, branches,
        classified, -, -, same⟩ := h
      obtain rfl := Option.some.inj same
      obtain ⟨entry, retTy⟩ := (Option.guard_eq_some' _).mp checked
      obtain rfl := (Option.guard_eq_some' _).mp sameA
      obtain ⟨aTy, bTy⟩ := (Option.guard_eq_some' _).mp types
      obtain ⟨kinds, calls⟩ := scan_allowed scanned
      obtain ⟨args, isSelf⟩ := (calls selfCall isCall).resolve_left (by simp)
      rw [call] at isSelf
      obtain ⟨rfl, -⟩ := InstKind.call.inj (Option.some.inj isSelf)
      obtain ⟨pos, doubled⟩ := findDouble_eq_some foundDouble
      have added := List.find?_some foundDoubleAdd
      have oddAdded := List.find?_some foundOddAdd
      simp only [decide_eq_true_eq] at added oddAdded
      refine
        { retTy := retTy, entry := entry, params := params, intParams := ?_, kinds := kinds
          call := call, half := halfForm_of_halfBinaries halfBins
          doubleAdd := added, double := doubled, modulus_pos := pos, oddAdd := oddAdded }
      intro param member
      rw [params] at member
      rcases List.mem_cons.mp member with rfl | last
      · exact ⟨aData, ha, aTy⟩
      · obtain rfl := List.mem_singleton.mp last
        exact ⟨bData, hb, bTy⟩

end AnonCompiler.Opt.Mulmod
