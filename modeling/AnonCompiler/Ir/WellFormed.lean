import Mathlib.Data.List.Nodup
import AnonCompiler.Ir.Edit

/-!
# Well-formed programs

What the builders of `ir/builder.rs` and the arenas guarantee of every program:
handles lie below the counters of their arena, the layout places instructions of
the arena, and operands have the types the builders assert.
-/

set_option autoImplicit false

namespace AnonCompiler.Ir

/-- When the lists of a table have no element twice, an element belongs to one
key. -/
theorem key_unique {table : List (Nat × List Nat)} (nodup : (table.flatMap Prod.snd).Nodup)
    {key key' : Nat} {list list' : List Nat} (entry : (key, list) ∈ table)
    (entry' : (key', list') ∈ table) {x : Nat} (member : x ∈ list) (member' : x ∈ list') :
    key = key' := by
  induction table with
  | nil => simp at entry
  | cons first rest ih =>
    rw [List.flatMap_cons, List.nodup_append] at nodup
    obtain ⟨-, nodup, apart⟩ := nodup
    have elsewhere : ∀ {k l}, (k, l) ∈ rest → x ∈ l → x ∉ first.2 := fun later inside inFirst =>
      apart x inFirst x (List.mem_flatMap.mpr ⟨_, later, inside⟩) rfl
    rcases List.mem_cons.mp entry with rfl | later <;>
      rcases List.mem_cons.mp entry' with same | later'
    · exact (Prod.mk.inj same).1.symm
    · exact absurd member (elsewhere later' member')
    · subst same
      exact absurd member' (elsewhere later member)
    · exact ih nodup later later'

/-- What holds of every function the builders make: the handles in use lie
below the counters and below the global handles, a block and an instruction are
laid out once, an instruction of the layout is in the arena and is no block
parameter, only the last instruction of a block transfers control, an instruction
uses no later one of its block, a parameter belongs to one block, and the
function's parameters are those of its entry block. -/
structure FunctionData.WellFormed (F : FunctionData) : Prop where
  inst_lt : ∀ {inst}, F.insts inst ≠ none → inst < F.nextInst
  local_ids : F.nextInst ≤ globalIdStart
  block_lt : ∀ {bb}, bb ∈ F.blocks → bb < F.nextBlock
  blocks_nodup : F.blocks.Nodup
  layout_nodup : F.layoutInsts.Nodup
  laidOut : ∀ {inst}, inst ∈ F.layoutInsts → ∃ data, F.insts inst = some data ∧
    ∀ index, data.kind ≠ .blockArgRef index
  terminator_last : ∀ {bb done inst rest data}, F.blockInsts bb = some (done ++ inst :: rest) →
    F.insts inst = some data → data.kind.isTerminator = true → rest = []
  ordered : ∀ {bb done inst rest data x}, F.blockInsts bb = some (done ++ inst :: rest) →
    F.insts inst = some data → x ∈ data.kind.instUsage → x ∉ inst :: rest
  blockParam : ∀ {bb param}, param ∈ F.blockParams bb →
    ∃ data index, F.insts param = some data ∧ data.kind = .blockArgRef index
  blockParams_nodup : ∀ bb, (F.blockParams bb).Nodup
  blockParams_unique : ∀ {bb bb' param},
    param ∈ F.blockParams bb → param ∈ F.blockParams bb' → bb = bb'
  params_entry : ∀ {entry}, F.entryBlock = some entry → F.params = F.blockParams entry

/-- The type of a value of the function. -/
def Program.typeOf (P : Program) (F : FunctionData) (inst : Inst) : Option Ty :=
  (P.instData F inst).map InstData.ty

/-- The types the builders assert. -/
structure FunctionData.WellTyped (P : Program) (F : FunctionData) : Prop where
  integer : ∀ {inst ty value}, F.insts inst = some ⟨ty, .integer value⟩ → ty = .int32
  binary : ∀ {inst ty op lhs rhs}, F.insts inst = some ⟨ty, .binary op lhs rhs⟩ →
    ∃ operand, P.typeOf F lhs = some operand ∧ P.typeOf F rhs = some operand ∧
      ty = if op.isCompare && !operand.isVector then .int32 else operand
  call : ∀ {inst ty callee args G}, F.insts inst = some ⟨ty, .call callee args⟩ →
    P.funcData callee = some G → ty = G.retTy
  terminator : ∀ {inst data}, F.insts inst = some data →
    data.kind.isTerminator = true → data.ty = .unit

structure Program.WellFormed (P : Program) : Prop where
  function : ∀ {f F}, P.funcData f = some F → F.WellFormed ∧ F.WellTyped P
  layout_nodup : P.functionLayout.Nodup

/-- `main` and the functions that laid out functions call are laid out. -/
structure Program.Closed (P : Program) : Prop where
  main : ∀ {main}, P.mainFunction = some main → main ∈ P.functionLayout
  callee : ∀ {f F inst g args}, f ∈ P.functionLayout → P.funcData f = some F →
    inst ∈ F.layoutInsts → F.kind inst = some (.call g args) ∨
      F.kind inst = some (.tailCall g args) → g ∈ P.functionLayout

namespace FunctionData.WellFormed

variable {F : FunctionData}

variable {inst : Inst} {bb : BasicBlock} {insts : List Inst}

section

variable (wellFormed : F.WellFormed)
include wellFormed

/-- An instruction of the function's arena is local. -/
theorem isLocal (h : F.insts inst ≠ none) : inst.isGlobal = false := by
  have below := Nat.lt_of_lt_of_le (wellFormed.inst_lt h) wellFormed.local_ids
  exact decide_eq_false (Nat.not_le_of_lt below)

theorem instData_eq {P : Program} {data : InstData} (h : F.insts inst = some data) :
    P.instData F inst = some data := by
  simp [Program.instData, wellFormed.isLocal (by simp [h] : F.insts inst ≠ none), h]

/-- Two blocks with a common instruction are the same. -/
theorem block_unique {bb' : BasicBlock} {insts' : List Inst} (block : F.blockInsts bb = some insts)
    (block' : F.blockInsts bb' = some insts') (member : inst ∈ insts) (member' : inst ∈ insts') :
    bb = bb' :=
  key_unique wellFormed.layout_nodup (mem_of_blockInsts block) (mem_of_blockInsts block') member
    member'

theorem nodup_block (block : F.blockInsts bb = some insts) : insts.Nodup :=
  (List.nodup_flatMap.mp wellFormed.layout_nodup).1 _ (mem_of_blockInsts block)

/-- An instruction of the layout is no parameter of a block. -/
theorem not_param (laidOut : inst ∈ F.layoutInsts) (bb : BasicBlock) : inst ∉ F.blockParams bb := by
  intro isParam
  obtain ⟨data, found, notParam⟩ := wellFormed.laidOut laidOut
  obtain ⟨data', index, found', isRef⟩ := wellFormed.blockParam isParam
  cases found.symm.trans found'
  exact notParam index isRef

end

end FunctionData.WellFormed

/-! ## Functions given by lists -/

/-- A function whose arenas are finite lists. -/
structure Listing where
  retTy : Ty
  name : String
  paramsTy : List Ty
  layout : List (BasicBlock × List Inst)
  insts : List (Inst × InstData)
  nextInst : Nat
  blockParams : List (BasicBlock × List Inst)
  nextBlock : Nat

namespace Listing

def blockParamsOf (L : Listing) (bb : BasicBlock) : List Inst := (L.blockParams.lookup bb).getD []

def toFunctionData (L : Listing) : FunctionData where
  retTy := L.retTy
  name := L.name
  paramsTy := L.paramsTy
  params := (L.layout.head?.map fun entry => L.blockParamsOf entry.1).getD []
  layout := L.layout
  insts := fun inst => L.insts.lookup inst
  nextInst := L.nextInst
  blockParams := L.blockParamsOf
  nextBlock := L.nextBlock

def isParam (data : InstData) : Bool :=
  match data.kind with
  | .blockArgRef _ => true
  | _ => false

/-- No instruction of a block uses itself or a later one. -/
def isOrdered (L : Listing) : List Inst → Bool
  | [] => true
  | inst :: rest => (L.insts.lookup inst).all (·.kind.instUsage.all (· ∉ inst :: rest)) &&
      isOrdered L rest

/-- `FunctionData.WellFormed`, as a check. -/
def wellFormed (L : Listing) : Bool :=
  L.insts.all (fun entry => entry.1 < L.nextInst) && L.nextInst ≤ globalIdStart &&
    L.layout.all (fun entry => entry.1 < L.nextBlock) && (L.layout.map Prod.fst).Nodup &&
    (L.layout.flatMap Prod.snd).Nodup &&
    L.layout.all (fun entry => entry.2.all fun inst => (L.insts.lookup inst).any (!isParam ·)) &&
    L.layout.all (fun entry => entry.2.dropLast.all fun inst =>
      (L.insts.lookup inst).all (!·.kind.isTerminator)) &&
    L.layout.all (fun entry => L.isOrdered entry.2) &&
    L.blockParams.all (fun entry =>
      entry.2.all fun param => (L.insts.lookup param).any isParam) &&
    (L.blockParams.flatMap Prod.snd).Nodup

/-- The type check of one instruction. -/
def typed (P : Program) (F : FunctionData) (data : InstData) : Bool :=
  match data.kind with
  | .integer _ => data.ty = .int32
  | .binary op lhs rhs =>
    match P.typeOf F lhs with
    | some operand => P.typeOf F rhs = some operand &&
        data.ty = (if op.isCompare && !operand.isVector then .int32 else operand)
    | none => false
  | .call callee _ => (P.funcData callee).all fun G => data.ty = G.retTy
  | kind => !kind.isTerminator || data.ty = .unit

variable {L : Listing}

theorem isOrdered_spec {done rest : List Inst} {inst x : Inst} {data : InstData}
    (h : L.isOrdered (done ++ inst :: rest) = true) (found : L.insts.lookup inst = some data)
    (used : x ∈ data.kind.instUsage) : x ∉ inst :: rest := by
  induction done with
  | nil =>
    obtain ⟨here, -⟩ := Bool.and_eq_true_iff.mp h
    rw [found, Option.all_some, List.all_eq_true] at here
    exact of_decide_eq_true (here x used)
  | cons first done ih => exact ih (Bool.and_eq_true_iff.mp h).2

theorem wellFormed_toFunctionData (h : L.wellFormed = true) : L.toFunctionData.WellFormed := by
  simp only [wellFormed, Bool.and_eq_true, List.all_eq_true, decide_eq_true_eq] at h
  obtain ⟨⟨⟨⟨⟨⟨⟨⟨⟨instsBelow, localIds⟩, blocksBelow⟩, nodup⟩, instsNodup⟩, laidOut⟩, lastOnly⟩,
    ordered⟩, params⟩, paramsNodup⟩ := h
  have listed : ∀ {bb param}, param ∈ L.blockParamsOf bb →
      (bb, L.blockParamsOf bb) ∈ L.blockParams := by
    intro bb param member
    unfold blockParamsOf at *
    cases found : L.blockParams.lookup bb with
    | none => simp [found] at member
    | some list => exact mem_of_lookup found
  refine ⟨?_, localIds, ?_, nodup, instsNodup, ?_, ?_, ?_, ?_, ?_, ?_, ?_⟩
  · intro inst present
    obtain ⟨data, found⟩ := Option.ne_none_iff_exists'.mp present
    exact instsBelow _ (mem_of_lookup found)
  · intro bb member
    obtain ⟨entry, laidOut', rfl⟩ := List.mem_map.mp member
    exact blocksBelow entry laidOut'
  · intro inst member
    obtain ⟨entry, member, inside⟩ := List.mem_flatMap.mp member
    obtain ⟨data, found, notParam⟩ :=
      Option.any_eq_true _ _ |>.mp (laidOut entry member inst inside)
    refine ⟨data, found, fun index kind => ?_⟩
    simp [isParam, kind] at notParam
  · intro bb done inst rest data block found isTerminator
    by_contra more
    have early : inst ∈ (done ++ inst :: rest).dropLast := by
      rw [List.dropLast_append_of_ne_nil (by simp), List.dropLast_cons_of_ne_nil more]
      simp
    have checked := lastOnly _ (FunctionData.mem_of_blockInsts block) inst early
    have found' : L.insts.lookup inst = some data := found
    simp [found', isTerminator] at checked
  · intro bb done inst rest data x block found used later
    have checked := ordered _ (FunctionData.mem_of_blockInsts block)
    exact isOrdered_spec checked found used later
  · intro bb param member
    have checked := params _ (listed member) param member
    obtain ⟨data, found, isRef⟩ := Option.any_eq_true _ _ |>.mp checked
    unfold isParam at isRef
    split at isRef
    · next index kind => exact ⟨data, index, found, kind⟩
    · cases isRef
  · intro bb
    change (L.blockParamsOf bb).Nodup
    by_cases noParams : L.blockParamsOf bb = []
    · rw [noParams]
      exact List.nodup_nil
    · obtain ⟨param, member⟩ := List.exists_mem_of_ne_nil _ noParams
      exact (List.nodup_flatMap.mp paramsNodup).1 _ (listed member)
  · intro bb bb' param member member'
    exact key_unique paramsNodup (listed member) (listed member') member member'
  · intro entry isEntry
    obtain ⟨first, isHead, rfl⟩ := Option.map_eq_some_iff.mp isEntry
    have isHead' : L.layout.head? = some first := isHead
    simp [toFunctionData, isHead']

theorem wellTyped_toFunctionData {P : Program}
    (h : ∀ entry ∈ L.insts, typed P L.toFunctionData entry.2 = true) :
    L.toFunctionData.WellTyped P where
  integer := by
    intro inst ty value found
    simpa [typed] using h _ (mem_of_lookup found)
  binary := by
    intro inst ty op lhs rhs found
    have checked := h _ (mem_of_lookup found)
    simp only [typed] at checked
    split at checked
    · next operand isTy =>
        obtain ⟨same, resultTy⟩ := Bool.and_eq_true_iff.mp checked
        exact ⟨operand, isTy, of_decide_eq_true same, of_decide_eq_true resultTy⟩
    · cases checked
  call := by
    intro inst ty callee args G found data
    simpa [typed, data] using h _ (mem_of_lookup found)
  terminator := by
    intro inst data found isTerminator
    have checked := h _ (mem_of_lookup found)
    obtain ⟨ty, kind⟩ := data
    cases kind <;> first
      | exact absurd isTerminator Bool.false_ne_true
      | simpa [typed, InstKind.isTerminator] using checked

end Listing

/-- A program of listed functions, all laid out, with listed globals. -/
def Program.ofListings (listings : List Listing) (globals : List (Inst × InstData))
    (main : Function) : Program where
  funcs := listings.map Listing.toFunctionData
  functionLayout := List.range listings.length
  globals := fun inst => globals.lookup inst
  globalLayout := globals.map Prod.fst
  mainFunction := some main

namespace Program

variable {listings : List Listing} {globals : List (Inst × InstData)} {main : Function}

/-- `Program.WellFormed`, as a check of listed functions. -/
def wellFormedListings (P : Program) (listings : List Listing) : Bool :=
  listings.all fun L => L.wellFormed &&
    L.insts.all fun entry => Listing.typed P L.toFunctionData entry.2

/-- The functions called are listed ones. -/
def closedListings (listings : List Listing) (main : Function) : Bool :=
  main < listings.length && listings.all fun L => L.insts.all fun entry =>
    match entry.2.kind with
    | .call callee _ | .tailCall callee _ => callee < listings.length
    | _ => true

theorem funcData_ofListings {f : Function} {F : FunctionData}
    (data : (ofListings listings globals main).funcData f = some F) :
    ∃ L, listings[f]? = some L ∧ F = L.toFunctionData := by
  simp only [funcData, ofListings, List.getElem?_map, Option.map_eq_some_iff] at data
  obtain ⟨L, listed, rfl⟩ := data
  exact ⟨L, listed, rfl⟩

theorem wellFormed_ofListings
    (h : wellFormedListings (ofListings listings globals main) listings = true) :
    (ofListings listings globals main).WellFormed where
  function := by
    intro f F data
    obtain ⟨L, listed, rfl⟩ := funcData_ofListings data
    have checked := List.all_eq_true.mp h L (List.mem_of_getElem? listed)
    obtain ⟨shape, types⟩ := Bool.and_eq_true_iff.mp checked
    exact ⟨Listing.wellFormed_toFunctionData shape,
      Listing.wellTyped_toFunctionData (List.all_eq_true.mp types)⟩
  layout_nodup := List.nodup_range

theorem closed_ofListings (h : closedListings listings main = true) :
    (ofListings listings globals main).Closed where
  main := by
    intro main' isMain
    obtain rfl := Option.some.inj isMain
    exact List.mem_range.mpr (of_decide_eq_true (Bool.and_eq_true_iff.mp h).1)
  callee := by
    intro f F inst g args _ data _ kind
    obtain ⟨L, listed, rfl⟩ := funcData_ofListings data
    have checked :=
      List.all_eq_true.mp (Bool.and_eq_true_iff.mp h).2 L (List.mem_of_getElem? listed)
    refine List.mem_range.mpr ?_
    rcases kind with kind | kind <;>
      obtain ⟨data, found, isKind⟩ := Option.map_eq_some_iff.mp kind <;>
      simpa [isKind] using List.all_eq_true.mp checked _ (mem_of_lookup found)

end Program

end AnonCompiler.Ir
