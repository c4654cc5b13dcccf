import AnonCompiler.Mir.MemzeroCorrect
import AnonCompiler.Mir.WordProducers

/-!
# Lowering a zero fill

`lower_mem_zero` of `anon_armv8/src/lower/memory.rs`: a short constant length is stored word
by word, every other one goes to the zeroing routine.  A run records the calls, with the
address and length that the routine received and the address that it returned.  The address
of an allocation is computed from the stack pointer, any other address is in a register.
-/

set_option autoImplicit false

namespace AnonCompiler.Mir

open Lib Memzero

/-! ## The selection -/

inductive MemZeroLen where
  | const (byteLen : BitVec 64)
  /-- An `i32` value in its register, with what has produced it. -/
  | value (reg : Reg) (producer : Producer)

/-- A zero fill when it is selected; the registers so far have numbers below `next`. -/
structure MemZero where
  dest : Reg
  /-- The stack offset of an allocation. -/
  alloc : Option (BitVec 64)
  byteLen : MemZeroLen
  next : Nat
  below : dest.vreg < next

inductive MemZeroInst where
  | stackAddr (dst : Reg) (offset : BitVec 64)
  | movFromZero (dst : Reg)
  | loadImm (dst : Reg) (value : BitVec 64)
  | store (src base : Reg) (offset : Nat)
  | call (dest byteLen : Reg)
deriving DecidableEq, Repr

def inlineMemzeroMaxStores : Nat := 4

def memZeroIsInline (byteLen : Nat) : Bool :=
  byteLen % 4 = 0 ∧ byteLen / 4 ≤ inlineMemzeroMaxStores

/-- The register of the address, what computes it, and the next number. -/
def MemZero.address (m : MemZero) : Reg × List MemZeroInst × Nat :=
  match m.alloc with
  | some offset => (⟨m.next, .int⟩, [.stackAddr ⟨m.next, .int⟩ offset], m.next + 1)
  | none => (m.dest, [], m.next)

def lowerConstMemZero (m : MemZero) (byteLen : BitVec 64) : List MemZeroInst :=
  let (dest, code, next) := m.address
  let tmp : Reg := ⟨next, .int⟩
  if memZeroIsInline byteLen.toNat then
    code ++ .movFromZero tmp ::
      (List.range (byteLen.toNat / 4)).map fun index => .store tmp dest (index * 4)
  else code ++ [.loadImm tmp byteLen, .call dest tmp]

def lowerMemZero (m : MemZero) : List MemZeroInst :=
  match m.byteLen with
  | .const byteLen => lowerConstMemZero m byteLen
  | .value reg _ => [.call m.dest reg]

/-! ## Running it -/

structure Call where
  x0 : BitVec 64
  x1 : BitVec 64
  returned : BitVec 64
deriving DecidableEq

structure MemZeroState where
  regs : Reg → BitVec 64
  sp : BitVec 64
  machine : Memzero.State
  calls : List Call

def MemZeroState.set (s : MemZeroState) (r : Reg) (v : BitVec 64) : MemZeroState :=
  { s with regs := Function.update s.regs r v }

def MemZeroInst.Runs (z : Dczid) : MemZeroInst → MemZeroState → MemZeroState → Prop
  | .stackAddr dst offset, s, t => t = s.set dst (s.sp + offset)
  | .movFromZero dst, s, t => t = s.set dst 0
  | .loadImm dst value, s, t => t = s.set dst value
  | .store src base offset, s, t => t = { s with
      machine := s.machine.store (s.regs base + BitVec.ofNat 64 offset) 4 fun k =>
        (s.regs src >>> (8 * k)).setWidth 8 }
  | .call dest byteLen, s, t => ∃ left,
      Returns z { s.machine with x0 := s.regs dest, x1 := s.regs byteLen } left ∧
        t = { s with
          machine := left
          calls := s.calls ++ [⟨s.regs dest, s.regs byteLen, left.x0⟩] }

def RunsCode (z : Dczid) : List MemZeroInst → MemZeroState → MemZeroState → Prop
  | [], s, t => t = s
  | i :: rest, s, t => ∃ u, i.Runs z s u ∧ RunsCode z rest u t

namespace MemZero

/-- The address that is to be cleared. -/
def destAddr (m : MemZero) (s : MemZeroState) : BitVec 64 :=
  match m.byteLen, m.alloc with
  | .const _, some offset => s.sp + offset
  | _, _ => s.regs m.dest

/-- The length, an `i32` being extended by zeros. -/
def length (m : MemZero) : BitVec 64 :=
  match m.byteLen with
  | .const byteLen => byteLen
  | .value _ producer => producer.value.setWidth 64

def Inline (m : MemZero) : Prop :=
  match m.byteLen with
  | .const byteLen => memZeroIsInline byteLen.toNat = true
  | .value _ _ => False

/-- Nothing stands above the length in its register. -/
def WholeLength (m : MemZero) : Prop :=
  match m.byteLen with
  | .const _ => True
  | .value _ producer => producer.Whole

/-- Nothing has been stored or called so far, and a computed length is in its register. -/
structure Starts (m : MemZero) (s : MemZeroState) : Prop where
  stores : s.machine.stores = []
  calls : s.calls = []
  held : ∀ reg producer, m.byteLen = .value reg producer → s.regs reg = producer.register

/-- The code ends, has stored zero to exactly the bytes of the range, and the routine has
received the length and returned the address. -/
def Exact (z : Dczid) (m : MemZero) (s : MemZeroState) : Prop :=
  ∃ t, RunsCode z (lowerMemZero m) s t ∧
    t.machine.memory = fill s.machine.memory (m.destAddr s) m.length.toNat 0 ∧
    (∀ a, t.machine.Touched a ↔ a ∈ byteRange (m.destAddr s) m.length.toNat) ∧
    ∀ call ∈ t.calls, call = ⟨m.destAddr s, m.length, m.destAddr s⟩

/-- What the routine receives as its length. -/
def received (m : MemZero) (s : MemZeroState) : BitVec 64 :=
  match m.byteLen with
  | .const byteLen => byteLen
  | .value reg _ => s.regs reg

end MemZero

/-! ## Stores in line -/

section Runs

variable {z : Dczid} {s t : MemZeroState} {code code' : List MemZeroInst}

theorem RunsCode.append {u : MemZeroState} (first : RunsCode z code s u)
    (second : RunsCode z code' u t) : RunsCode z (code ++ code') s t := by
  induction code generalizing s with
  | nil =>
    cases first
    exact second
  | cons i rest ih =>
    obtain ⟨v, ran, rest'⟩ := first
    exact ⟨v, ran, ih rest'⟩

/-- Stores of a zero register, word by word. -/
theorem runs_stores {tmp dest : Reg} (zero : s.regs tmp = 0) (n : Nat) :
    ∃ t, RunsCode z ((List.range n).map fun index => .store tmp dest (index * 4)) s t ∧
      t.regs = s.regs ∧ t.calls = s.calls ∧
      t.machine.memory = fill s.machine.memory (s.regs dest) (n * 4) 0 ∧
      ∀ a, t.machine.Touched a ↔ s.machine.Touched a ∨ a ∈ byteRange (s.regs dest) (n * 4) := by
  induction n with
  | zero => exact ⟨s, rfl, rfl, rfl, by simp, by simp⟩
  | succ n ih =>
    obtain ⟨t, runs, regs, calls, memory, touched⟩ := ih
    let u : MemZeroState := { t with
      machine := t.machine.store (s.regs dest + BitVec.ofNat 64 (n * 4)) 4 fun _ => 0 }
    have bytes : (fun k => (t.regs tmp >>> (8 * k)).setWidth 8) = fun _ => (0 : BitVec 8) := by
      funext k
      rw [regs, zero]
      simp
    have stored : (MemZeroInst.store tmp dest (n * 4)).Runs z t u := by
      show u = { t with
        machine := t.machine.store (t.regs dest + BitVec.ofNat 64 (n * 4)) 4 fun k =>
          (t.regs tmp >>> (8 * k)).setWidth 8 }
      rw [bytes, congrFun regs dest]
    refine ⟨u, ?_, regs, calls, ?_, fun a => ?_⟩
    · rw [List.range_succ, List.map_append]
      exact runs.append ⟨u, stored, rfl⟩
    · rw [Nat.succ_mul, ← fill_add, ← memory]
      rfl
    · rw [Nat.succ_mul, byteRange_add, Set.mem_union, ← or_assoc, ← touched]
      exact touched_store _ _ _ a

end Runs

/-! ## Exactness -/

namespace MemZero

variable {z : Dczid} {m : MemZero} {s : MemZeroState}

/-- The code in front of the stores or the call leaves the address in its register, and one
more value in a new one. -/
theorem runs_address (inst : MemZeroInst) (v : BitVec 64)
    (sets : ∀ s t, inst.Runs z s t ↔ t = s.set ⟨m.address.2.2, .int⟩ v) :
    ∃ s', s'.machine = s.machine ∧ s'.calls = s.calls ∧
      s'.regs m.address.1 = m.alloc.elim (s.regs m.dest) (s.sp + ·) ∧
      s'.regs ⟨m.address.2.2, .int⟩ = v ∧
      ∀ rest t, RunsCode z (m.address.2.1 ++ inst :: rest) s t ↔ RunsCode z rest s' t := by
  have below := m.below
  cases isAlloc : m.alloc with
  | none =>
    simp only [address, isAlloc] at sets ⊢
    have apart : m.dest ≠ ⟨m.next, .int⟩ := by
      intro same
      rw [same] at below
      exact Nat.lt_irrefl _ below
    refine ⟨s.set ⟨m.next, .int⟩ v, rfl, rfl, Function.update_of_ne apart .., 
      Function.update_self .., fun rest t => ?_⟩
    simp [RunsCode, sets]
  | some offset =>
    simp only [address, isAlloc] at sets ⊢
    have apart : (⟨m.next, .int⟩ : Reg) ≠ ⟨m.next + 1, .int⟩ := by
      simp
    refine ⟨(s.set ⟨m.next, .int⟩ (s.sp + offset)).set ⟨m.next + 1, .int⟩ v, rfl, rfl,
      (Function.update_of_ne apart ..).trans (Function.update_self ..),
      Function.update_self .., fun rest t => ?_⟩
    show (∃ u, u = s.set ⟨m.next, .int⟩ (s.sp + offset) ∧
      ∃ u', inst.Runs z u u' ∧ RunsCode z rest u' t) ↔ _
    simp [sets]

theorem destAddr_const {byteLen : BitVec 64} (isConst : m.byteLen = .const byteLen) :
    m.destAddr s = m.alloc.elim (s.regs m.dest) (s.sp + ·) := by
  unfold destAddr
  rw [isConst]
  cases m.alloc <;> rfl

theorem exact_of_inline (starts : m.Starts s) (isInline : m.Inline) : Exact z m s := by
  unfold Inline at isInline
  split at isInline
  · next byteLen isConst =>
      have code : lowerMemZero m = m.address.2.1 ++ .movFromZero ⟨m.address.2.2, .int⟩ ::
          (List.range (byteLen.toNat / 4)).map fun index =>
            .store ⟨m.address.2.2, .int⟩ m.address.1 (index * 4) := by
        unfold lowerMemZero
        rw [isConst]
        exact if_pos isInline
      obtain ⟨s', machine, calls, addr, zero, runs⟩ := runs_address (z := z) (m := m) (s := s)
        (.movFromZero ⟨m.address.2.2, .int⟩) 0 fun _ _ => Iff.rfl
      obtain ⟨t, stores, -, calls', memory, touched⟩ :=
        runs_stores (z := z) zero (byteLen.toNat / 4)
      have whole : byteLen.toNat / 4 * 4 = m.length.toNat := by
        unfold length
        rw [isConst]
        exact Nat.div_mul_cancel (Nat.dvd_of_mod_eq_zero (of_decide_eq_true isInline).1)
      refine ⟨t, ?_, ?_, fun a => ?_, fun call member => ?_⟩
      · rw [code, runs]
        exact stores
      · rw [memory, addr, machine, whole, destAddr_const isConst]
      · rw [touched, addr, machine, whole, destAddr_const isConst]
        simp [State.Touched, starts.stores]
      · rw [calls', calls, starts.calls] at member
        cases member
  · exact isInline.elim

/-- The code of a call, up to it. -/
theorem runs_call (notInline : ¬ m.Inline) : ∃ dest byteLen s', s'.machine = s.machine ∧
    s'.calls = s.calls ∧ s'.regs dest = m.destAddr s ∧ s'.regs byteLen = m.received s ∧
    ∀ t, RunsCode z (lowerMemZero m) s t ↔ RunsCode z [.call dest byteLen] s' t := by
  unfold lowerMemZero
  cases isLen : m.byteLen with
  | value reg producer =>
    refine ⟨m.dest, reg, s, rfl, rfl, ?_, ?_, fun t => Iff.rfl⟩
    · simp [destAddr, isLen]
    · simp [received, isLen]
  | const byteLen =>
    have notShort : ¬ memZeroIsInline byteLen.toNat = true := by
      simpa [Inline, isLen] using notInline
    obtain ⟨s', machine, calls, addr, value, runs⟩ := runs_address (z := z) (m := m) (s := s)
      (.loadImm ⟨m.address.2.2, .int⟩ byteLen) byteLen fun _ _ => Iff.rfl
    refine ⟨m.address.1, ⟨m.address.2.2, .int⟩, s', machine, calls, ?_, ?_, fun t => ?_⟩
    · rw [addr, destAddr_const isLen]
    · simp [received, isLen, value]
    · rw [← runs]
      simp only [lowerConstMemZero, if_neg notShort]

/-- A call is exact when the routine receives the length and does not clear too much. -/
theorem exact_call_iff (starts : m.Starts s) (notInline : ¬ m.Inline) :
    Exact z m s ↔ m.received s = m.length ∧ ¬ Overshoots z (m.destAddr s) m.length := by
  obtain ⟨dest, byteLen, s', machine, calls, addr, value, runs⟩ :=
    runs_call (z := z) (s := s) notInline
  let u : Memzero.State := { s.machine with x0 := m.destAddr s, x1 := m.received s }
  have isStart : { s'.machine with x0 := s'.regs dest, x1 := s'.regs byteLen } = u := by
    rw [machine, addr, value]
  constructor
  · rintro ⟨t, ran, memory, touched, exactCalls⟩
    obtain ⟨_, ⟨left, returns, rfl⟩, rfl⟩ := (runs t).mp ran
    rw [isStart] at returns
    have call := exactCalls ⟨s'.regs dest, s'.regs byteLen, left.x0⟩ (by simp)
    simp only [Call.mk.injEq] at call
    obtain ⟨-, isLength, returned⟩ := call
    rw [value] at isLength
    refine ⟨isLength, ?_⟩
    rw [← isLength]
    refine (zeroesExactly_iff z u starts.stores).mp ⟨left, returns, returned, ?_, ?_⟩
    · rw [← isLength] at memory
      exact memory
    · rw [← isLength] at touched
      exact touched
  · rintro ⟨isLength, within⟩
    rw [← isLength] at within
    obtain ⟨left, returns, returned, memory, touched⟩ :=
      (zeroesExactly_iff z u starts.stores).mpr within
    refine ⟨_, (runs _).mpr ⟨_, ⟨left, isStart ▸ returns, rfl⟩, rfl⟩, ?_, ?_, fun call member => ?_⟩
    · rw [← isLength]
      exact memory
    · rw [← isLength]
      exact touched
    · rw [calls, starts.calls] at member
      simp only [List.nil_append, List.mem_singleton] at member
      rw [member, addr, value, isLength]
      exact congrArg _ returned

theorem received_eq_iff (starts : m.Starts s) : m.received s = m.length ↔ m.WholeLength := by
  unfold received length WholeLength
  cases isLen : m.byteLen with
  | const byteLen => exact iff_of_true rfl trivial
  | value reg producer =>
    show s.regs reg = producer.value.setWidth 64 ↔ producer.Whole
    rw [starts.held reg producer isLen]
    exact producer.register_eq_iff

end MemZero

/-- A zero fill is exact unless the register of its length holds more than the length, or the
routine comes past the end while it aligns to a block. -/
theorem lowerMemZero_exact_iff (z : Dczid) (m : MemZero) (s : MemZeroState)
    (starts : m.Starts s) : m.Exact z s ↔
      m.Inline ∨ m.WholeLength ∧ ¬ Overshoots z (m.destAddr s) m.length := by
  by_cases isInline : m.Inline
  · exact iff_of_true (MemZero.exact_of_inline starts isInline) (.inl isInline)
  · rw [MemZero.exact_call_iff starts isInline, MemZero.received_eq_iff starts,
      or_iff_right isInline]

section Inputs

/-- Blocks of 512 bytes. -/
def blocks512 : Dczid := ⟨false, 7, by decide⟩

def fillOf (byteLen : MemZeroLen) : MemZero where
  dest := ⟨200, .int⟩
  alloc := none
  byteLen := byteLen
  next := 202
  below := by decide

def holding (dest byteLen : BitVec 64) : MemZeroState where
  regs r := if r.vreg = 200 then dest else byteLen
  sp := 0
  machine := ⟨0, 0, 0, 0, 0, 0, 0, ⟨false, false, false, false⟩, fun _ => 1, []⟩
  calls := []

theorem fillOf_starts {byteLen : MemZeroLen} {dest x : BitVec 64}
    (held : ∀ reg producer, byteLen = .value reg producer → (holding dest x).regs reg =
      producer.register) : (fillOf byteLen).Starts (holding dest x) :=
  ⟨rfl, rfl, held⟩

/-- 257 bytes from address 16 on, when a block has 512 bytes: the next block begins behind
the range. -/
theorem lowerMemZero_overshoots : ¬ (fillOf (.const 257)).Exact blocks512 (holding 16 0) := by
  rw [MemZero.exact_call_iff (fillOf_starts fun _ _ isValue => by cases isValue) (by
    show ¬ memZeroIsInline 257 = true
    decide)]
  rintro ⟨-, within⟩
  refine within ⟨?_, rfl, ?_⟩
  · show 256 < 257
    decide
  · show 257 < (-16#64).toNat % blocks512.block
    decide

/-- 300 bytes from the beginning of a block on, the length being computed. -/
theorem lowerMemZero_exact_iff_computed :
    (fillOf (.value ⟨201, .int⟩ (.word 300))).Exact blocks512 (holding 0 300) := by
  refine (lowerMemZero_exact_iff blocks512 _ _ (fillOf_starts fun reg producer isValue => ?_)).mpr
    (.inr ⟨trivial, fun overshoots => ?_⟩)
  · cases isValue
    rfl
  · have less : 300 < (-0#64).toNat % blocks512.block := overshoots.2.2
    revert less
    decide

end Inputs

end AnonCompiler.Mir
