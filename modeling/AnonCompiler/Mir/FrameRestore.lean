import AnonCompiler.Mir.FrameAreas

/-!
# Saving and restoring registers

The code of the prologue and of the epilogue, as it is emitted, on a machine where a float
register and the vector register of its number are one register.  A body that keeps the stack
pointer and the saved areas gets back what the prologue saved; whether that is all of a
register depends on the class in which the register was saved.
-/

set_option autoImplicit false

namespace AnonCompiler.Mir

open AnonCompiler.Lib

/-! ## Bytes -/

section Bytes

variable {mem mem' : Bytes} {address place sp : BitVec 64} {count start size : Nat} {value : Value}

theorem Bytes.read_congr
    (same : ∀ i < count, mem (address + BitVec.ofNat 64 i) = mem' (address + BitVec.ofNat 64 i)) :
    mem.read address count = mem'.read address count := by
  induction count generalizing address with
  | zero => rfl
  | succ count ih =>
    have next (i : Nat) : address + 1 + BitVec.ofNat 64 i =
        address + BitVec.ofNat 64 (i + 1) := by
      rw [Nat.add_comm i 1, BitVec.ofNat_add, ← BitVec.add_assoc]
      rfl
    have first : mem address = mem' address := by simpa using same 0 (Nat.succ_pos _)
    rw [Bytes.read, Bytes.read, first, ih fun i below => ?_]
    rw [next]
    exact same (i + 1) (Nat.succ_lt_succ below)

theorem Bytes.getLsbD_read {i : Nat} (inside : i < 128) : (mem.read address count).getLsbD i =
    (decide (i < 8 * count) && (mem (address + BitVec.ofNat 64 (i / 8))).getLsbD (i % 8)) := by
  induction count generalizing address i with
  | zero => simp [Bytes.read]
  | succ count ih =>
    rw [Bytes.read, BitVec.getLsbD_or, BitVec.getLsbD_shiftLeft, BitVec.getLsbD_setWidth]
    by_cases first : i < 8
    · have zero : i / 8 = 0 := Nat.div_eq_of_lt first
      simp [first, zero, Nat.mod_eq_of_lt first, inside, show i < 8 * (count + 1) by omega]
    · have above : (mem address).getLsbD i = false := BitVec.getLsbD_of_ge _ _ (by omega)
      have index : address + 1 + BitVec.ofNat 64 ((i - 8) / 8) =
          address + BitVec.ofNat 64 (i / 8) := by
        rw [show i / 8 = 1 + (i - 8) / 8 by omega, BitVec.ofNat_add, ← BitVec.add_assoc]
        rfl
      rw [ih (by omega), index, show (i - 8) % 8 = i % 8 by omega, above]
      simp [first, inside, show i - 8 < 8 * count ↔ i < 8 * (count + 1) by omega]

/-- What is read back is the part of the value that was written. -/
theorem Bytes.read_write_self :
    (mem.write address count value).read address count =
      (value.setWidth (8 * count)).setWidth 128 := by
  refine BitVec.eq_of_getLsbD_eq fun i inside => ?_
  rw [Bytes.getLsbD_read inside, BitVec.getLsbD_setWidth, BitVec.getLsbD_setWidth]
  by_cases below : i < 8 * count
  · have index : (address + BitVec.ofNat 64 (i / 8) - address).toNat = i / 8 := by
      rw [BitVec.toNat_sub, BitVec.toNat_add, BitVec.toNat_ofNat]
      omega
    simp only [Bytes.write, index, if_pos (show i / 8 < count by omega)]
    rw [BitVec.getLsbD_setWidth, BitVec.getLsbD_ushiftRight, show 8 * (i / 8) + i % 8 = i by omega]
    simp [below, inside, Nat.mod_lt]
  · simp [below]

/-- The places of an area above the stack pointer. -/
theorem distance_lt_iff (fits : start + size ≤ 2 ^ 64) :
    (place - (sp + BitVec.ofNat 64 start)).toNat < size ↔
      start ≤ (place - sp).toNat ∧ (place - sp).toNat < start + size := by
  rw [BitVec.toNat_sub, BitVec.toNat_sub, BitVec.toNat_add, BitVec.toNat_ofNat]
  omega

theorem Bytes.write_apply (fits : start + size ≤ 2 ^ 64)
    (outside : ¬ (start ≤ (place - sp).toNat ∧ (place - sp).toNat < start + size)) :
    (mem.write (sp + BitVec.ofNat 64 start) size value) place = mem place :=
  if_neg fun inside => outside ((distance_lt_iff fits).mp inside)

/-- Neighbouring places can be written in either order. -/
theorem Bytes.write_comm {value' : Value} (fits : size + size ≤ 2 ^ 64) :
    (mem.write address size value).write (address + BitVec.ofNat 64 size) size value' =
      (mem.write (address + BitVec.ofNat 64 size) size value').write address size value := by
  funext place
  have upper : (place - (address + BitVec.ofNat 64 size)).toNat < size ↔
      size ≤ (place - address).toNat ∧ (place - address).toNat < size + size :=
    distance_lt_iff fits
  simp only [Bytes.write]
  by_cases high : (place - (address + BitVec.ofNat 64 size)).toNat < size
  · rw [if_pos high, if_neg (fun low => by have := (upper.mp high).1; omega), if_pos high]
  · simp only [if_neg high]

end Bytes

/-! ## Emission -/

section Emission

variable {checks : Bool} {frame : FrameLayout} {r : Reg} {n : BitVec 32} {offset : BitVec 64}
  {ty : MemoryType} {code more : List SaveInst} {s t : FrameState}

theorem Reg.named_of_int (isInt : r.regClass = .int) : r.named = r := by
  simp [Reg.named, isInt]

theorem isInt_of_scratch (isScratch : r ∈ intPostRaScratch.map intReg) : r.regClass = .int := by
  obtain ⟨index, -, rfl⟩ := List.mem_map.mp isScratch
  rfl

/-- A vector register is no scratch register under either name. -/
theorem named_eq_scratch {scratch : Reg} (isScratch : scratch ∈ intPostRaScratch.map intReg) :
    scratch = r.named ↔ scratch = r := by
  have isInt := isInt_of_scratch isScratch
  unfold Reg.named
  split
  · next isVector =>
      constructor
      · rintro rfl
        cases isInt
      · rintro rfl
        cases isInt.symm.trans isVector
  · exact Iff.rfl

theorem named_constants {dst : Reg} (isInt : dst.regClass = .int) {value : BitVec 64}
    {insts : List FrameInst} (made : materializeIntegerConstant value .size64 dst = some insts) :
    insts.map FrameInst.named = insts := by
  obtain ⟨plan, -, rfl⟩ := Option.map_eq_some_iff.mp made
  rw [List.map_map]
  refine List.map_congr_left fun step _ => ?_
  rw [Function.comp_apply, FrameInst.named, Reg.named_of_int isInt]

/-- Legalization of an address above the stack pointer names integer registers only. -/
theorem named_legalizeAMode {storeSrc : Option Reg} {addr : AMode} {insts : List FrameInst}
    (made : legalizeAMode checks n (.spOffset offset) ty storeSrc = some (addr, insts)) :
    addr.named = addr ∧ insts.map FrameInst.named = insts := by
  have spNamed : stackReg.named = stackReg := rfl
  simp only [legalizeAMode, frameBase, Option.bind_eq_bind, Option.bind_some] at made
  split at made
  · next direct isDirect =>
      cases made
      refine ⟨?_, rfl⟩
      rcases Option.or_eq_some_iff.mp isDirect with scaled | ⟨-, unscaled⟩
      · obtain ⟨imm, -, rfl⟩ := Option.map_eq_some_iff.mp scaled
        rfl
      · obtain ⟨imm, -, rfl⟩ := Option.map_eq_some_iff.mp unscaled
        rfl
  · unfold scratchAMode at made
    split at made
    · next address offsetReg rest scratches =>
        have isInt : ∀ scratch ∈ [address, offsetReg], scratch.regClass = .int := by
          intro scratch member
          refine isInt_of_scratch (List.mem_of_mem_filter (p := fun x => some x ≠ storeSrc) ?_)
          rw [scratches]
          rcases List.mem_cons.mp member with rfl | later
          · exact List.mem_cons_self
          · exact List.mem_cons_of_mem _ (List.mem_singleton.mp later ▸ List.mem_cons_self)
        have addressNamed := Reg.named_of_int (isInt address List.mem_cons_self)
        have offsetNamed :=
          Reg.named_of_int (isInt offsetReg (List.mem_cons_of_mem _ List.mem_cons_self))
        simp only [if_true, Option.bind_eq_bind, Option.bind_eq_some_iff, Option.some.injEq,
          Prod.mk.injEq] at made
        obtain ⟨constants, isConstants, rfl, rfl⟩ := made
        refine ⟨by rw [AMode.named, addressNamed], ?_⟩
        simp only [List.map_append, List.map_cons, List.map_nil, FrameInst.named, RegOrZr.named,
          named_constants (isInt offsetReg (List.mem_cons_of_mem _ List.mem_cons_self)) isConstants,
          addressNamed, offsetNamed, spNamed]
    · cases made

/-- The scratch registers are chosen alike. -/
theorem legalizeAMode_named : legalizeAMode checks n (.spOffset offset) ty (some r.named) =
    legalizeAMode checks n (.spOffset offset) ty (some r) := by
  have alike : (intPostRaScratch.map intReg).filter (fun scratch => some scratch ≠ some r.named) =
      (intPostRaScratch.map intReg).filter fun scratch => some scratch ≠ some r :=
    List.filter_congr fun scratch isScratch => by
      simp only [ne_eq, Option.some.injEq, named_eq_scratch isScratch]
  simp only [legalizeAMode, frameBase, scratchAMode, alike]

/-- Naming the registers of an access before or after legalization is the same. -/
theorem legalizeInst_store_named : legalizeInst checks n (.store ty r.named (.spOffset offset)) =
    (legalizeInst checks n (.store ty r (.spOffset offset))).map (·.map FrameInst.named) := by
  simp only [legalizeInst, legalizeAMode_named, Option.bind_eq_bind]
  cases made : legalizeAMode checks n (.spOffset offset) ty (some r) with
  | none => rfl
  | some legal =>
    obtain ⟨addrNamed, instsNamed⟩ := named_legalizeAMode made
    simp [FrameInst.named, addrNamed, instsNamed]

theorem legalizeInst_load_named : legalizeInst checks n (.load ty r.named (.spOffset offset)) =
    (legalizeInst checks n (.load ty r (.spOffset offset))).map (·.map FrameInst.named) := by
  simp only [legalizeInst, Option.bind_eq_bind]
  cases made : legalizeAMode checks n (.spOffset offset) ty none with
  | none => rfl
  | some legal =>
    obtain ⟨addrNamed, instsNamed⟩ := named_legalizeAMode made
    simp [FrameInst.named, addrNamed, instsNamed]

/-! ### Running emitted code -/

theorem execSaves_append (more : List SaveInst) (run : execSaves s code = some t) :
    execSaves s (code ++ more) = execSaves t more := by
  rw [execSaves, List.foldlM_append, ← execSaves, run]
  rfl

theorem execSaves_inst (insts : List FrameInst) :
    execSaves s (insts.map .inst) = execFrame s insts := by
  induction insts generalizing s with
  | nil => rfl
  | cons first rest ih =>
    rw [List.map_cons, execSaves, List.foldlM_cons, execFrame, List.foldlM_cons]
    refine congrArg _ (funext fun next => ?_)
    exact ih

theorem emitLegalized_append : emitLegalized checks frame (code ++ more) =
    (emitLegalized checks frame code).bind fun first =>
      (emitLegalized checks frame more).map fun second => first ++ second := by
  simp only [emitLegalized, List.mapM_append, Option.bind_eq_bind, Option.pure_def]
  cases code.mapM (SaveInst.legalize checks frame) with
  | none => rfl
  | some first =>
    cases more.mapM (SaveInst.legalize checks frame) with
    | none => rfl
    | some second => simp

/-- Instructions that are emitted as they are. -/
def EmittedAsIs (checks : Bool) (frame : FrameLayout) (i : SaveInst) : Prop :=
  i.legalize checks frame = some [i] ∧ i.named = i

theorem emitLegalized_asIs (asIs : ∀ i ∈ code, EmittedAsIs checks frame i) :
    emitLegalized checks frame code = some code := by
  have legal : code.mapM (SaveInst.legalize checks frame) = some (code.map fun i => [i]) :=
    mapM_eq_some_map fun i member => (asIs i member).1
  have same : code.map SaveInst.named = code :=
    (List.map_congr_left fun i member => (asIs i member).2).trans (List.map_id code)
  rw [emitLegalized, legal, Option.map_some, ← List.flatMap_def, List.flatMap_singleton', same]

/-- The same state, but for the scratch registers. -/
structure Like (s t : FrameState) : Prop where
  mem : s.mem = t.mem
  regs : ∀ r, r ∉ intPostRaScratch.map intReg → s.regs r = t.regs r

theorem Like.refl (s : FrameState) : Like s s := ⟨rfl, fun _ _ => rfl⟩

theorem Like.trans {u : FrameState} (first : Like s t) (second : Like t u) : Like s u :=
  ⟨first.mem.trans second.mem, fun r kept => (first.regs r kept).trans (second.regs r kept)⟩

theorem Like.word (like : Like s t) (kept : r ∉ intPostRaScratch.map intReg) :
    s.word r = t.word r := congrArg (Value.read .size64) (like.regs r kept)

theorem stackReg_kept : stackReg ∉ intPostRaScratch.map intReg := by decide

/-- The instructions are emitted as code that takes any state to its image. -/
def Runs (checks : Bool) (frame : FrameLayout) (insts : List SaveInst)
    (image : FrameState → FrameState) : Prop :=
  ∃ code, emitLegalized checks frame insts = some code ∧
    ∀ s, ∃ t, execSaves s code = some t ∧ Like t (image s)

variable {image image' : FrameState → FrameState} {insts insts' : List SaveInst}

/-- The image does not depend on scratch registers. -/
def Respects (image : FrameState → FrameState) : Prop := ∀ s t, Like s t → Like (image s) (image t)

theorem Runs.nil : Runs checks frame [] id := ⟨[], rfl, fun s => ⟨s, rfl, .refl s⟩⟩

theorem Runs.append (first : Runs checks frame insts image)
    (second : Runs checks frame insts' image') (respects : Respects image') :
    Runs checks frame (insts ++ insts') (image' ∘ image) := by
  obtain ⟨code, made, run⟩ := first
  obtain ⟨code', made', run'⟩ := second
  refine ⟨code ++ code', ?_, fun s => ?_⟩
  · rw [emitLegalized_append, made, made']
    rfl
  · obtain ⟨t, done, like⟩ := run s
    obtain ⟨u, done', like'⟩ := run' t
    exact ⟨u, (execSaves_append _ done).trans done', like'.trans (respects t (image s) like)⟩

theorem Runs.congr (runs : Runs checks frame insts image) (same : ∀ s, image s = image' s) :
    Runs checks frame insts image' := by
  obtain ⟨code, made, run⟩ := runs
  exact ⟨code, made, fun s => same s ▸ run s⟩

/-- One instruction that is legalized. -/
theorem Runs.legalized {inst named : FrameInst} {codes : List FrameInst}
    (made : legalizeInst checks (BitVec.ofNat 32 frame.outgoingArgsSize) named = some codes)
    (alike : legalizeInst checks (BitVec.ofNat 32 frame.outgoingArgsSize) named =
      (legalizeInst checks (BitVec.ofNat 32 frame.outgoingArgsSize) inst).map
        (·.map FrameInst.named))
    (run : ∀ s, ∃ t, execFrame s codes = some t ∧ Like t (image s)) :
    Runs checks frame [.inst inst] image := by
  rw [made] at alike
  obtain ⟨legal, isLegal, rfl⟩ := Option.map_eq_some_iff.mp alike.symm
  refine ⟨(legal.map FrameInst.named).map .inst, ?_, fun s => ?_⟩
  · have single : [SaveInst.inst inst].mapM (SaveInst.legalize checks frame) =
        some [legal.map .inst] := by
      simp [SaveInst.legalize, isLegal]
    rw [emitLegalized, single, Option.map_some, List.flatten_singleton, List.map_map, List.map_map]
    rfl
  · rw [execSaves_inst]
    exact run s

/-- Storing at an offset from the stack pointer. -/
def stored (ty : MemoryType) (r : Reg) (offset : BitVec 64) (s : FrameState) : FrameState :=
  { s with mem := s.mem.write (s.word stackReg + offset) ty.byteSize (s.regs r) }

/-- Loading from an offset from the stack pointer. -/
def loaded (ty : MemoryType) (r : Reg) (offset : BitVec 64) (s : FrameState) : FrameState :=
  s.set r (s.mem.read (s.word stackReg + offset) ty.byteSize)

theorem runs_store (ty : MemoryType) (notSp : r.named ≠ stackReg) (offset : BitVec 64) :
    Runs checks frame [.inst (.store ty r (.spOffset offset))] (stored ty r.named offset) := by
  obtain ⟨codes, made, -, run⟩ := @legalizes_store checks (BitVec.ofNat 32 frame.outgoingArgsSize)
    ty r.named (.spOffset offset) rfl notSp trivial
  refine .legalized made legalizeInst_store_named fun s => ?_
  obtain ⟨t, done, mem, regs⟩ := run (s := s) rfl
  exact ⟨t, done, mem, fun r' kept => regs r' fun isScratch => absurd isScratch kept⟩

theorem runs_load (ty : MemoryType) (notSp : r.named ≠ stackReg) (offset : BitVec 64) :
    Runs checks frame [.inst (.load ty r (.spOffset offset))] (loaded ty r.named offset) := by
  obtain ⟨codes, made, -, run⟩ := @legalizes_load checks (BitVec.ofNat 32 frame.outgoingArgsSize)
    ty r.named (.spOffset offset) rfl notSp trivial
  refine .legalized made legalizeInst_load_named fun s => ?_
  obtain ⟨t, done, mem, regs⟩ := run (s := s) rfl
  exact ⟨t, done, mem, fun r' kept => regs r' fun isScratch => absurd isScratch kept⟩

theorem respects_stored (notScratch : r ∉ intPostRaScratch.map intReg) :
    Respects (stored ty r offset) := by
  intro s t like
  refine ⟨?_, like.regs⟩
  rw [stored, stored, like.word stackReg_kept, like.mem, like.regs r notScratch]

theorem Like.set (like : Like s t) (r : Reg) (value : Value) :
    Like (s.set r value) (t.set r value) := by
  refine ⟨like.mem, fun r' kept => ?_⟩
  by_cases here : r' = r
  · subst here
    rw [FrameState.set_self, FrameState.set_self]
  · rw [FrameState.set_of_ne _ here, FrameState.set_of_ne _ here]
    exact like.regs r' kept

theorem respects_loaded : Respects (loaded ty r offset) := by
  intro s t like
  rw [loaded, loaded, like.word stackReg_kept, like.mem]
  exact like.set _ _

end Emission

/-! ## The registers that are saved -/

section Clobbers

variable {checks : Bool} {frame : FrameLayout} {p q : PReg} {s t : FrameState}
  {slots : List (PReg × Int)}

/-- A register that is saved is none that the prologue itself uses. -/
theorem calleeSaved_named (saved : p.isCalleeSaved = true) :
    p.reg.named ∉ intPostRaScratch.map intReg ∧ p.reg.named ≠ stackReg ∧
      p.reg.named ≠ intReg fp ∧ p.reg.named ≠ intReg lr := by
  obtain ⟨hwEnc, regClass⟩ := p
  cases regClass with
  | int =>
    simp only [PReg.isCalleeSaved, Bool.and_eq_true, decide_eq_true_eq] at saved
    simp [PReg.reg, Reg.named, PReg.index, RegClass.code, intReg, stackReg, fp, lr,
      intPostRaScratch]
    omega
  | float | vector => simp [PReg.reg, Reg.named, intReg, stackReg, intPostRaScratch]

theorem index_injective (same : p.index = q.index) : p = q := by
  obtain ⟨hwEnc, regClass⟩ := p
  obtain ⟨hwEnc', regClass'⟩ := q
  simp only [PReg.index] at same
  have isClass : regClass.code = regClass'.code := by
    have := hwEnc.isLt
    have := hwEnc'.isLt
    omega
  have sameClass : regClass = regClass' := by
    cases regClass <;> cases regClass' <;> first | rfl | cases isClass
  subst sameClass
  rw [BitVec.eq_of_toNat_eq (Nat.add_left_cancel same)]

theorem reg_injective (same : p.reg = q.reg) : p = q :=
  index_injective (congrArg Reg.vreg same)

theorem named_of_i64 (isInt : clobberMemoryType p = .i64) : p.reg.named = p.reg := by
  refine Reg.named_of_int ?_
  obtain ⟨hwEnc, regClass⟩ := p
  cases regClass with
  | int => rfl
  | float => cases isInt
  | vector => cases isInt

theorem byteOffset_new {value : Int} {offset : SImm7Scaled}
    (made : SImm7Scaled.new value 8 = some offset) : offset.byteOffset = value := by
  unfold SImm7Scaled.new at made
  split at made
  · cases made
  · next whole =>
      split at made
      · cases made
        have divides : value.tmod 8 = 0 := by_contra fun part => whole (.inr part)
        exact Int.tdiv_mul_cancel (Int.dvd_of_tmod_eq_zero divides)
      · cases made

theorem respects_foldl (image : PReg × Int → FrameState → FrameState)
    (respects : ∀ slot : PReg × Int, slot.1.isCalleeSaved = true → Respects (image slot))
    (saved : ∀ slot ∈ slots, slot.1.isCalleeSaved = true) :
    Respects fun s => slots.foldl (fun s slot => image slot s) s := by
  induction slots with
  | nil => exact fun s t like => like
  | cons slot slots ih =>
    intro s t like
    exact ih (fun slot member => saved slot (List.mem_cons_of_mem _ member)) _ _
      (respects slot (saved slot List.mem_cons_self) _ _ like)

/-- Code for the slots, put together from the code for a slot and for two that touch. -/
theorem runs_clobberCode {single : PReg → Int → SaveInst}
    {pair : PReg → PReg → SImm7Scaled → SaveInst} (image : PReg × Int → FrameState → FrameState)
    (respects : ∀ slot : PReg × Int, slot.1.isCalleeSaved = true → Respects (image slot))
    (singles : ∀ slot : PReg × Int, slot.1.isCalleeSaved = true →
      Runs checks frame [single slot.1 slot.2] (image slot))
    (pairs : ∀ (first second : PReg × Int) (offset : SImm7Scaled),
      first.1.isCalleeSaved = true → second.1.isCalleeSaved = true → first.1 ≠ second.1 →
      clobberMemoryType first.1 = .i64 → clobberMemoryType second.1 = .i64 →
      first.2 = second.2 + 8 → offset.byteOffset = second.2 →
      Runs checks frame [pair second.1 first.1 offset] (image second ∘ image first))
    (saved : ∀ slot ∈ slots, slot.1.isCalleeSaved = true) (nodup : (slots.map Prod.fst).Nodup) :
    Runs checks frame (clobberCode single pair slots)
      fun s => slots.foldl (fun s slot => image slot s) s := by
  induction slots using clobberCode.induct with
  | case1 => exact .nil
  | case2 p addr => exact singles (p, addr) (saved _ List.mem_cons_self)
  | case3 p addr next nextAddr rest offset isPair ih =>
    rw [clobberCode, isPair]
    split at isPair
    · next together =>
        obtain ⟨firstInt, secondInt, touching⟩ := together
        have isFirst := saved (p, addr) List.mem_cons_self
        have isSecond := saved (next, nextAddr) (List.mem_cons_of_mem _ List.mem_cons_self)
        have laterSaved : ∀ slot ∈ rest, slot.1.isCalleeSaved = true := fun slot member =>
          saved slot (List.mem_cons_of_mem _ (List.mem_cons_of_mem _ member))
        rw [List.map_cons, List.map_cons] at nodup
        have differ : p ≠ next := fun same =>
          (List.nodup_cons.mp nodup).1 (same ▸ List.mem_cons_self)
        have both := pairs (p, addr) (next, nextAddr) offset isFirst isSecond differ firstInt
          secondInt (by dsimp only; omega) (byteOffset_new isPair)
        exact both.append (ih laterSaved (List.nodup_cons.mp (List.nodup_cons.mp nodup).2).2)
          (respects_foldl image respects laterSaved)
    · cases isPair
  | case4 p addr next nextAddr rest notPair ih =>
    rw [clobberCode, notPair]
    have isFirst := saved (p, addr) List.mem_cons_self
    have laterSaved : ∀ slot ∈ (next, nextAddr) :: rest, slot.1.isCalleeSaved = true :=
      fun slot member => saved slot (List.mem_cons_of_mem _ member)
    rw [List.map_cons] at nodup
    exact (singles (p, addr) isFirst).append (ih laterSaved (List.nodup_cons.mp nodup).2)
      (respects_foldl image respects laterSaved)

/-- Saving the register of a slot. -/
def saveSlot (slot : PReg × Int) : FrameState → FrameState :=
  stored (clobberMemoryType slot.1) slot.1.reg.named (BitVec.ofInt 64 slot.2)

/-- Restoring the register of a slot. -/
def restoreSlot (slot : PReg × Int) : FrameState → FrameState :=
  loaded (clobberMemoryType slot.1) slot.1.reg.named (BitVec.ofInt 64 slot.2)

/-- The address of the upper half of a pair. -/
theorem upper_address {low high : Int} (touching : high = low + 8) (base : BitVec 64) :
    base + BitVec.ofInt 64 low + BitVec.ofNat 64 8 = base + BitVec.ofInt 64 high := by
  rw [touching, BitVec.ofInt_add, ← BitVec.add_assoc]
  rfl

section

variable (saved : ∀ slot ∈ frame.clobberSlots, slot.1.isCalleeSaved = true)
  (nodup : (frame.clobberSlots.map Prod.fst).Nodup)
include saved nodup

theorem runs_clobberSave :
    Runs checks frame frame.genClobberSave
      fun s => frame.clobberSlots.foldl (fun s slot => saveSlot slot s) s := by
  refine runs_clobberCode saveSlot
    (fun slot isSaved => respects_stored (calleeSaved_named isSaved).1)
    (fun slot isSaved => runs_store _ (calleeSaved_named isSaved).2.1 _) ?_ saved nodup
  intro first second offset _ _ _ firstInt secondInt touching isOffset
  have firstNamed := named_of_i64 firstInt
  have secondNamed := named_of_i64 secondInt
  have asIs : ∀ i ∈ [SaveInst.storePair .i64 second.1.reg first.1.reg
      (.signedOffset stackReg offset)], EmittedAsIs checks frame i := by
    intro i member
    rw [List.mem_singleton.mp member]
    refine ⟨rfl, ?_⟩
    rw [SaveInst.named, firstNamed, secondNamed]
    rfl
  refine ⟨_, emitLegalized_asIs asIs, fun s => ⟨_, rfl, ?_, fun _ _ => rfl⟩⟩
  change (s.mem.write (s.word stackReg + BitVec.ofInt 64 offset.byteOffset) 8
    (s.regs second.1.reg)).write (s.word stackReg + BitVec.ofInt 64 offset.byteOffset +
      BitVec.ofNat 64 8) 8 (s.regs first.1.reg) = _
  rw [Bytes.write_comm (by decide), isOffset, upper_address touching, saveSlot, saveSlot,
    Function.comp_apply, stored, stored, firstInt, secondInt, firstNamed, secondNamed]
  rfl

theorem runs_clobberRestore :
    Runs checks frame frame.genClobberRestore
      fun s => frame.clobberSlots.foldl (fun s slot => restoreSlot slot s) s := by
  refine runs_clobberCode restoreSlot (fun slot _ => respects_loaded)
    (fun slot isSaved => runs_load _ (calleeSaved_named isSaved).2.1 _) ?_ saved nodup
  intro first second offset isFirst _ differ firstInt secondInt touching isOffset
  have firstNamed := named_of_i64 firstInt
  have secondNamed := named_of_i64 secondInt
  have asIs : ∀ i ∈ [SaveInst.loadPair .i64 second.1.reg first.1.reg
      (.signedOffset stackReg offset)], EmittedAsIs checks frame i := by
    intro i member
    rw [List.mem_singleton.mp member]
    refine ⟨rfl, ?_⟩
    rw [SaveInst.named, firstNamed, secondNamed]
    rfl
  have regsDiffer : first.1.reg ≠ second.1.reg := fun same => differ (reg_injective same)
  have notSp : first.1.reg ≠ stackReg := firstNamed ▸ (calleeSaved_named isFirst).2.1
  refine ⟨_, emitLegalized_asIs asIs, fun s => ⟨_, rfl, rfl, fun r _ => ?_⟩⟩
  change (((s.set second.1.reg (s.mem.read (s.word stackReg + BitVec.ofInt 64 offset.byteOffset)
    8)).set first.1.reg (s.mem.read (s.word stackReg + BitVec.ofInt 64 offset.byteOffset +
      BitVec.ofNat 64 8) 8))).regs r = _
  have sp : (restoreSlot first s).word stackReg = s.word stackReg := by
    rw [restoreSlot, loaded, firstNamed]
    exact FrameState.word_set_of_ne s notSp.symm _
  rw [isOffset, upper_address touching, Function.comp_apply, restoreSlot, loaded, sp, restoreSlot,
    loaded, firstInt, secondInt, firstNamed, secondNamed]
  by_cases isSecond : r = second.1.reg
  · subst isSecond
    rw [FrameState.set_of_ne _ regsDiffer.symm, FrameState.set_self, FrameState.set_self]
    rfl
  · by_cases isFirst : r = first.1.reg
    · subst isFirst
      rw [FrameState.set_self, FrameState.set_of_ne _ isSecond, FrameState.set_self]
      rfl
    · rw [FrameState.set_of_ne _ isFirst, FrameState.set_of_ne _ isSecond,
        FrameState.set_of_ne _ isSecond, FrameState.set_of_ne _ isFirst]

end

end Clobbers

/-! ## The stack pointer and the frame pointer -/

section Setup

variable {checks : Bool} {frame : FrameLayout} {s t : FrameState} {amount : Int}

def spMoved (amount : Int) (s : FrameState) : FrameState :=
  if amount = 0 then s
  else s.set stackReg (@Value.written .size64 (s.word stackReg + BitVec.ofInt 64 amount))

/-- The frame pointer and the link register go below the stack pointer. -/
def pushed (s : FrameState) : FrameState :=
  let a := s.word stackReg + BitVec.ofInt 64 (-16)
  let mem := s.mem.write a 8 (s.regs (intReg fp))
  let mem := mem.write (a + BitVec.ofNat 64 8) 8 (s.regs (intReg lr))
  FrameState.set { s with mem } stackReg (@Value.written .size64 a)

def popped (s : FrameState) : FrameState :=
  let a := s.word stackReg
  ((s.set (intReg fp) (s.mem.read a 8)).set (intReg lr) (s.mem.read (a + BitVec.ofNat 64 8) 8)).set
    stackReg (@Value.written .size64 (a + BitVec.ofInt 64 16))

def fpSet (total : Nat) (s : FrameState) : FrameState :=
  s.set (intReg fp) (@Value.written .size64 (s.word stackReg + BitVec.ofNat 64 total))

variable {value : BitVec 64} {insts : List FrameInst}

theorem asIs_constants {dst : Reg} (isInt : dst.regClass = .int)
    (made : materializeIntegerConstant value .size64 dst = some insts) :
    ∀ i ∈ insts.map SaveInst.inst, EmittedAsIs checks frame i := by
  obtain ⟨plan, -, rfl⟩ := Option.map_eq_some_iff.mp made
  intro i member
  obtain ⟨inst, isInst, rfl⟩ := List.mem_map.mp member
  obtain ⟨step, -, rfl⟩ := List.mem_map.mp isInst
  refine ⟨rfl, ?_⟩
  rw [SaveInst.named, FrameInst.named, Reg.named_of_int isInt]

theorem ofInt_of_neg (negative : amount < 0) (base : BitVec 64) :
    base - BitVec.ofNat 64 amount.natAbs = base + BitVec.ofInt 64 amount := by
  have isNeg : amount = -(amount.natAbs : Int) := by omega
  rw [isNeg, BitVec.ofInt_neg, BitVec.ofInt_natCast, Int.natAbs_neg, Int.natAbs_natCast,
    BitVec.sub_eq_add_neg]

theorem ofInt_of_nonneg (nonneg : ¬ amount < 0) (base : BitVec 64) :
    base + BitVec.ofNat 64 amount.natAbs = base + BitVec.ofInt 64 amount := by
  have isNat : amount = (amount.natAbs : Int) := by omega
  rw [isNat, BitVec.ofInt_natCast, Int.natAbs_natCast]

theorem runs_spAdjust (amount : Int) : ∃ insts, appendSpAdjust amount = some insts ∧
    Runs checks frame insts (spMoved amount) := by
  have moved (base : BitVec 64) :
      (if amount < 0 then AluOp.sub else .add).eval base (BitVec.ofNat 64 amount.natAbs) =
        base + BitVec.ofInt 64 amount := by
    split
    · next negative => exact ofInt_of_neg negative base
    · next nonneg => exact ofInt_of_nonneg nonneg base
  unfold appendSpAdjust
  split
  · next zero =>
      refine ⟨[], rfl, Runs.nil.congr fun s => ?_⟩
      rw [spMoved, if_pos zero, id]
  · next nonzero =>
      have image (s : FrameState) : spMoved amount s =
          s.set stackReg (@Value.written .size64 (s.word stackReg + BitVec.ofInt 64 amount)) :=
        if_neg nonzero
      dsimp only
      split
      · next imm isImm =>
          refine ⟨_, rfl, _, emitLegalized_asIs (fun i member => ?_), fun s => ⟨_, rfl, ?_⟩⟩
          · rw [List.mem_singleton.mp member]
            exact ⟨rfl, rfl⟩
          · rw [image, maybeFromU64_bits isImm]
            exact (moved _) ▸ .refl _
      · obtain ⟨insts, made, -, run⟩ := materializeIntegerConstant_spec
          (BitVec.ofNat 64 amount.natAbs) (show intReg 14 ≠ stackReg by decide)
        simp only [made, Option.bind_eq_bind, Option.bind_some]
        refine ⟨_, rfl, _, emitLegalized_asIs (fun i member => ?_), fun s => ?_⟩
        · rcases List.mem_append.mp member with isConstant | isLast
          · exact asIs_constants rfl made i isConstant
          · rw [List.mem_singleton.mp isLast]
            exact ⟨rfl, rfl⟩
        · have start : execSaves s (insts.map .inst) = some (s.set (intReg 14)
              (@Value.written .size64 (BitVec.ofNat 64 amount.natAbs))) :=
            (execSaves_inst insts).trans (run s)
          refine ⟨_, (execSaves_append _ start).trans rfl, ?_⟩
          rw [image]
          refine ⟨rfl, fun r kept => ?_⟩
          have not14 : r ≠ intReg 14 := fun same => kept (same ▸ by decide)
          by_cases here : r = stackReg
          · subst here
            rw [FrameState.set_self, FrameState.set_self, ← moved]
            refine congrArg (@Value.written .size64) ?_
            have constant : (s.set (intReg 14) (@Value.written .size64
                (BitVec.ofNat 64 amount.natAbs))).word (intReg 14) =
                BitVec.ofNat 64 amount.natAbs := FrameState.word_set_self _ _ _
            rw [constant, FrameState.set_of_ne _ (by decide)]
            simp only [ExtendOp.eval, BitVec.shiftLeft_zero]
            exact congrArg _ (BitVec.setWidth_eq _)
          · rw [FrameState.set_of_ne _ here, FrameState.set_of_ne _ here,
              FrameState.set_of_ne _ not14]

theorem asIs_addConstant (made : appendAddConstant (intReg fp) stackReg value = some insts) :
    ∀ i ∈ insts.map SaveInst.inst, EmittedAsIs checks frame i := by
  unfold appendAddConstant at made
  split at made
  · cases made
    intro i member
    rw [List.map_singleton, List.mem_singleton] at member
    subst member
    exact ⟨rfl, rfl⟩
  · simp only [if_true, Option.bind_eq_bind, Option.bind_eq_some_iff, Option.some.injEq] at made
    obtain ⟨constants, isConstants, rfl⟩ := made
    intro i member
    simp only [List.map_append, List.mem_append, List.map_singleton, List.mem_singleton] at member
    rcases member with (rfl | isConstant) | rfl
    · exact ⟨rfl, rfl⟩
    · exact asIs_constants rfl isConstants i isConstant
    · exact ⟨rfl, rfl⟩

theorem runs_fpSet (total : Nat) : ∃ insts,
    appendAddConstant (intReg fp) stackReg (BitVec.ofNat 64 total) = some insts ∧
      Runs checks frame (insts.map .inst) (fpSet total) := by
  obtain ⟨insts, made, -, run⟩ := appendAddConstant_spec (show intReg fp ≠ stackReg by decide)
    (BitVec.ofNat 64 total)
  refine ⟨insts, made, _, emitLegalized_asIs (asIs_addConstant made), fun s => ?_⟩
  obtain ⟨t, done, mem, isFp, regs⟩ := run s
  refine ⟨t, (execSaves_inst insts).trans done, mem, fun r kept => ?_⟩
  by_cases here : r = intReg fp
  · subst here
    rw [isFp, fpSet, FrameState.set_self]
  · rw [fpSet, FrameState.set_of_ne _ here]
    exact regs r kept here

theorem runs_push {offset : SImm7Scaled} (isOffset : offset.byteOffset = -16) :
    Runs checks frame [.storePair .i64 (intReg fp) (intReg lr) (.preIndex stackReg offset)]
      pushed := by
  refine ⟨_, emitLegalized_asIs (fun i member => ?_), fun s => ⟨_, rfl, ?_⟩⟩
  · rw [List.mem_singleton.mp member]
    exact ⟨rfl, rfl⟩
  · simp only [PairAMode.writeBack, PairAMode.sum, PairAMode.address, isOffset]
    exact .refl _

theorem runs_pop {offset : SImm7Scaled} (isOffset : offset.byteOffset = 16) :
    Runs checks frame [.loadPair .i64 (intReg fp) (intReg lr) (.postIndex stackReg offset)]
      popped := by
  refine ⟨_, emitLegalized_asIs (fun i member => ?_), fun s => ⟨_, rfl, ?_⟩⟩
  · rw [List.mem_singleton.mp member]
    exact ⟨rfl, rfl⟩
  · simp only [PairAMode.writeBack, PairAMode.sum, PairAMode.address, isOffset]
    exact .refl _

theorem respects_spMoved : Respects (spMoved amount) := by
  unfold spMoved
  split
  · exact fun s t like => like
  · intro s t like
    simp only [like.word stackReg_kept]
    exact like.set _ _

theorem respects_fpSet {total : Nat} : Respects (fpSet total) := fun s t like => by
  rw [fpSet, fpSet, like.word stackReg_kept]
  exact like.set _ _

theorem respects_popped : Respects popped := fun s t like => by
  simp only [popped, like.word stackReg_kept, like.mem]
  exact ((like.set _ _).set _ _).set _ _

end Setup

end AnonCompiler.Mir
