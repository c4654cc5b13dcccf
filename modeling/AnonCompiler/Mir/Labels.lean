import AnonCompiler.Lib.JoinedNames
import Mathlib.Data.List.Nodup
import Mathlib.Logic.Function.Basic

/-!
# The labels of the assembly

Every symbol the compiler defines is a join of names: a global variable gets
`gv_` in front of its identifier (`set_value_name`), a block the name it was
given and its number in the arena of its function (`BasicBlockArena::alloc`),
and the labels inside a function the name of the function, of its blocks, and
the words between them (`format_block_label` of both backends, `insert_veneer`).
The joins are not injective: a function may be called `gv_x` beside a variable
`x`, and a function `f_while` may own a block `end` where a function `f` owns a
block `while_end`.
-/

set_option autoImplicit false

namespace AnonCompiler.Mir.Labels

open Lib

/-! ## Blocks and their names -/

/-- The names the frontend and the passes give to blocks, where nothing is filled in. -/
def fixedBases : List String :=
  ["entry", "while_entry", "while_body", "while_end", "then", "else", "end", "lor_rhs",
    "lor_merge", "land_rhs", "land_merge", "gvn_pre_split", "memo_in_bounds", "memo_hit",
    "memo_miss", "blocked_guard", "blocked_main_header", "blocked_main_body",
    "blocked_main_exit", "mm_k_header", "mm_k_body", "mm_k_exit", "mm_j_header", "mm_j_body",
    "mm_j_latch", "mm_wb_header", "mm_wb_body", "reduction_guard", "reduction_main_header",
    "reduction_main_body", "reduction_main_exit", "irh_done", "irh_latch", "mulmod_zero",
    "mulmod_fast", "preheader"]

/-- What a new block is called, before its number is added.  A `name` that is filled in is the
name of another block, with its number. -/
inductive BlockBase where
  | fixed (base : String) (known : base ∈ fixedBases)
  | chainCase (k : BitVec 32)
  | chainCheck (k : BitVec 32)
  | chainSplit (k : BitVec 32)
  | unroll (name : String) (iteration : Nat)
  | irh (base : BlockBase) (id : Nat)
  | inline (name source : String)
  | inlineCont (name : String)
  | tailrecCont (name : String)

/-- `format!("{}_{}", name, id)`. -/
def numbered (base : String) (id : Nat) : String := base ++ "_" ++ Nat.repr id

namespace BlockBase

def text : BlockBase → String
  | fixed base _ => base
  | chainCase k => "chain_case_" ++ Int.repr k.toInt
  | chainCheck k => "chain_check_" ++ Int.repr k.toInt
  | chainSplit k => "chain_split_" ++ Int.repr k.toInt
  | unroll name iteration => numbered (name ++ "_unroll") iteration
  | irh base id => "irh_" ++ numbered base.text id
  | inline name source => name ++ "_" ++ source ++ "_inline"
  | inlineCont name => name ++ "_inline_cont"
  | tailrecCont name => name ++ "_tailrec_cont"

end BlockBase

abbrev BasicBlock := Nat

/-- The blocks of a function; of the data of a block only its name. -/
structure BasicBlockArena where
  data : BasicBlock → Option String
  nextId : Nat

namespace BasicBlockArena

def new : BasicBlockArena := ⟨fun _ => none, 1⟩

def alloc (arena : BasicBlockArena) (base : BlockBase) : BasicBlockArena × BasicBlock :=
  (⟨Function.update arena.data arena.nextId (some (numbered base.text arena.nextId)),
    arena.nextId + 1⟩, arena.nextId)

/-- The arenas of a run of the compiler. -/
inductive Allocated : BasicBlockArena → Prop where
  | new : Allocated new
  | alloc {arena : BasicBlockArena} (before : Allocated arena) (base : BlockBase) :
      Allocated (arena.alloc base).1

/-- A block is called after its base and its number. -/
theorem Allocated.data_eq {arena : BasicBlockArena} (allocated : arena.Allocated)
    {bb : BasicBlock} {name : String} (found : arena.data bb = some name) :
    ∃ base : BlockBase, name = numbered base.text bb := by
  induction allocated with
  | new => cases found
  | @alloc arena _ base ih =>
    by_cases latest : bb = arena.nextId
    · subst latest
      change Function.update arena.data arena.nextId _ arena.nextId = some name at found
      rw [Function.update_self] at found
      exact ⟨base, (Option.some.inj found).symm⟩
    · change Function.update arena.data arena.nextId _ bb = some name at found
      rw [Function.update_of_ne latest] at found
      exact ih found

end BasicBlockArena

/-! ## The labels -/

inductive LoweredBlock where
  | orig (block : BasicBlock)
  | edge (pred succ : BasicBlock) (succIdx : Nat)
deriving DecidableEq, Repr

def LoweredBlock.blocks : LoweredBlock → List BasicBlock
  | orig block => [block]
  | edge pred succ _ => [pred, succ]

/-- A function as it is written out: the order of its lowered blocks has each of them once, and
`veneers` of them have been inserted. -/
structure EmittedFunction where
  name : String
  arena : BasicBlockArena
  allocated : arena.Allocated
  order : List LoweredBlock
  order_nodup : order.Nodup
  inArena : ∀ lb ∈ order, ∀ bb ∈ lb.blocks, (arena.data bb).isSome
  veneers : Nat

/-- `replace('%', "_")`. -/
def sanitize (name : String) : String :=
  String.ofList (name.toList.map fun c => if c = '%' then '_' else c)

def EmittedFunction.bbName (F : EmittedFunction) (bb : BasicBlock) : String :=
  sanitize ((F.arena.data bb).getD "")

/-- What a label says after the name of the function. -/
def EmittedFunction.tail (F : EmittedFunction) : LoweredBlock → String
  | .orig block => F.bbName block
  | .edge pred succ succIdx =>
    F.bbName pred ++ "_to_" ++ F.bbName succ ++ "_edge_" ++ Nat.repr succIdx

def formatBlockLabel (lb : LoweredBlock) (F : EmittedFunction) : String :=
  ".L_" ++ sanitize F.name ++ "_" ++ F.tail lb

def veneerName (funcName : String) (veneerId : Nat) : String :=
  ".L_" ++ funcName ++ "_veneer_" ++ Nat.repr veneerId

/-- The identifiers of the grammar. -/
def isIdent (name : String) : Bool :=
  match name.toList with
  | [] => false
  | first :: rest => (first = '_' || first.isAlpha) && rest.all fun c => c = '_' || c.isAlphanum

/-- The names of a compiled program.  The frontend puts variables and functions into one scope and
refuses a second definition of a variable. -/
structure EmittedProgram where
  globals : List String
  functions : List EmittedFunction
  globals_nodup : globals.Nodup
  functionIdent : ∀ F ∈ functions, isIdent F.name = true

/-- `set_value_name` of a global instruction. -/
def globalName (ident : String) : String := "gv_" ++ ident

def EmittedFunction.labels (F : EmittedFunction) : List String :=
  F.name :: (F.order.map (formatBlockLabel · F) ++
    (List.range F.veneers).flatMap fun id => [veneerName F.name id, veneerName F.name id ++ "_end"])

/-- The labels that the assembly defines. -/
def EmittedProgram.labels (P : EmittedProgram) : List String :=
  P.globals.map globalName ++ P.functions.flatMap EmittedFunction.labels

/-! ## Names that do not clash -/

/-- Where the name of `G` continues the name of `F`, the blocks and edges of `F` do not say what is
left of the name of `G` and a block or edge of `G`. -/
structure EmittedFunction.NamesApart (F G : EmittedFunction) : Prop where
  name : F.name ≠ G.name
  blocks : ∀ w, G.name = F.name ++ "_" ++ w →
    ∀ bb, .orig bb ∈ F.order → ∀ bb', .orig bb' ∈ G.order →
      F.bbName bb ≠ w ++ "_" ++ G.bbName bb'
  edges : ∀ w, G.name = F.name ++ "_" ++ w →
    ∀ pred succ i, .edge pred succ i ∈ F.order → ∀ pred' succ', .edge pred' succ' i ∈ G.order →
      F.bbName pred ++ "_to_" ++ F.bbName succ ≠
        w ++ "_" ++ (G.bbName pred' ++ "_to_" ++ G.bbName succ')

structure EmittedProgram.Apart (P : EmittedProgram) : Prop where
  globals : ∀ ident ∈ P.globals, ∀ F ∈ P.functions, F.name ≠ globalName ident
  functions : P.functions.Pairwise fun F G => F.NamesApart G ∧ G.NamesApart F

end AnonCompiler.Mir.Labels
