import AnonCompiler.Ir.Cfg
import AnonCompiler.Ir.LocalSim
import AnonCompiler.Opt.ChainToSwitch

/-!
# Decision trees decide like chains

The blocks that `buildTree` lays out realize the balanced search tree over the
sorted constants (`Realizes`), and executing them follows the search of that
tree (`Realizes.walk`).  So a tree sends a value to the handler of the one link
that has the value as its constant, and to the default if there is none.
-/

set_option autoImplicit false

namespace AnonCompiler.Opt.ChainToSwitch

open Ir Lib

/-! ## Adding blocks and instructions -/

section Add

variable {F : FunctionData} {bb : BasicBlock} {data : InstData}

@[simp] theorem place_nextInst : (place F bb data).nextInst = F.nextInst + 1 := rfl

@[simp] theorem place_nextBlock : (place F bb data).nextBlock = F.nextBlock := rfl

@[simp] theorem place_blockParams : (place F bb data).blockParams = F.blockParams := rfl

@[simp] theorem place_insts :
    (place F bb data).insts = Function.update F.insts F.nextInst (some data) := rfl

@[simp] theorem place_blocks : (place F bb data).blocks = F.blocks :=
  FunctionData.editBlock_blocks _

theorem place_blockInsts (b : BasicBlock) : (place F bb data).blockInsts b =
    if b = bb then (F.blockInsts bb).map (· ++ [F.nextInst]) else F.blockInsts b :=
  FunctionData.editBlock_blockInsts _ b

@[simp] theorem addBlock_nextInst : (addBlock F).nextInst = F.nextInst := rfl

@[simp] theorem addBlock_nextBlock : (addBlock F).nextBlock = F.nextBlock + 1 := rfl

@[simp] theorem addBlock_insts : (addBlock F).insts = F.insts := rfl

@[simp] theorem addBlock_blockParams :
    (addBlock F).blockParams = Function.update F.blockParams F.nextBlock [] := rfl

theorem addBlock_blocks : (addBlock F).blocks = F.blocks ++ [F.nextBlock] := by
  simp [addBlock, FunctionData.blocks, FunctionData.pushBlock, FunctionData.newBlock,
    FunctionData.newParams]

theorem addBlock_blockInsts_of_ne (differ : bb ≠ F.nextBlock) :
    (addBlock F).blockInsts bb = F.blockInsts bb := by
  show (F.layout ++ [(F.nextBlock, [])]).lookup bb = F.layout.lookup bb
  rw [List.lookup_append]
  simp [List.lookup_cons, beq_eq_false_iff_ne.mpr differ]

/-- A new block is empty. -/
theorem addBlock_blockInsts (below : ∀ bb ∈ F.blocks, bb < F.nextBlock) :
    (addBlock F).blockInsts F.nextBlock = some [] := by
  have missing : F.layout.lookup F.nextBlock = none := by
    rw [List.lookup_eq_none_iff]
    intro entry member
    have lt := below entry.1 (List.mem_map_of_mem member)
    exact bne_iff_ne.mpr lt.ne'
  show (F.layout ++ [(F.nextBlock, [])]).lookup F.nextBlock = some []
  rw [List.lookup_append, missing]
  simp

end Add

/-! ## Growing a function -/

/-- A handle allocated between two states of a function. -/
def New (F G : FunctionData) (inst : Inst) : Prop := F.nextInst ≤ inst ∧ inst < G.nextInst

def NewBlock (F G : FunctionData) (bb : BasicBlock) : Prop := F.nextBlock ≤ bb ∧ bb < G.nextBlock

/-- The old blocks have kept their instructions and got those of `tail` behind them. -/
structure Grows (F G : FunctionData) (tail : BasicBlock → List Inst) : Prop where
  nextInst : F.nextInst ≤ G.nextInst
  nextBlock : F.nextBlock ≤ G.nextBlock
  insts : ∀ inst < F.nextInst, G.insts inst = F.insts inst
  blockParams : ∀ bb < F.nextBlock, G.blockParams bb = F.blockParams bb
  blockInsts : ∀ bb < F.nextBlock, G.blockInsts bb = (F.blockInsts bb).map (· ++ tail bb)
  blocks : (∀ bb ∈ F.blocks, bb < F.nextBlock) → ∀ bb ∈ G.blocks, bb < G.nextBlock

namespace Grows

variable {F G H : FunctionData} {tail tail' : BasicBlock → List Inst}

theorem refl (F : FunctionData) : Grows F F fun _ => [] where
  nextInst := le_rfl
  nextBlock := le_rfl
  insts _ _ := rfl
  blockParams _ _ := rfl
  blockInsts _ _ := by simp
  blocks below := below

theorem trans (first : Grows F G tail) (second : Grows G H tail') :
    Grows F H fun bb => tail bb ++ tail' bb where
  nextInst := first.nextInst.trans second.nextInst
  nextBlock := first.nextBlock.trans second.nextBlock
  insts inst old :=
    (second.insts inst (old.trans_le first.nextInst)).trans (first.insts inst old)
  blockParams bb old :=
    (second.blockParams bb (old.trans_le first.nextBlock)).trans (first.blockParams bb old)
  blockInsts bb old := by
    rw [second.blockInsts bb (old.trans_le first.nextBlock), first.blockInsts bb old,
      Option.map_map]
    congr 1
    funext insts
    exact List.append_assoc ..
  blocks below := second.blocks (first.blocks below)

theorem congr (grows : Grows F G tail) (same : ∀ bb < F.nextBlock, tail bb = tail' bb) :
    Grows F G tail' where
  nextInst := grows.nextInst
  nextBlock := grows.nextBlock
  insts := grows.insts
  blockParams := grows.blockParams
  blockInsts bb old := by rw [grows.blockInsts bb old, same bb old]
  blocks := grows.blocks

theorem newInst (grows : Grows F G tail) (data : InstData) : Grows F (G.newInst data) tail where
  nextInst := grows.nextInst.trans (Nat.le_succ _)
  nextBlock := grows.nextBlock
  insts inst old := by
    rw [FunctionData.newInst_insts, Function.update_of_ne (old.trans_le grows.nextInst).ne]
    exact grows.insts inst old
  blockParams := grows.blockParams
  blockInsts := grows.blockInsts
  blocks := grows.blocks

theorem addBlock (grows : Grows F G tail) : Grows F (addBlock G) tail where
  nextInst := grows.nextInst
  nextBlock := grows.nextBlock.trans (Nat.le_succ _)
  insts := grows.insts
  blockParams bb old := by
    rw [addBlock_blockParams, Function.update_of_ne (old.trans_le grows.nextBlock).ne]
    exact grows.blockParams bb old
  blockInsts bb old := by
    rw [addBlock_blockInsts_of_ne (old.trans_le grows.nextBlock).ne]
    exact grows.blockInsts bb old
  blocks below bb member := by
    rw [addBlock_blocks] at member
    rcases List.mem_append.mp member with before | last
    · exact (grows.blocks below bb before).trans (Nat.lt_succ_self _)
    · rw [List.mem_singleton.mp last]
      exact Nat.lt_succ_self _

/-- Instructions are added to a block, new or old. -/
theorem place (grows : Grows F G tail) (check : BasicBlock) (data : InstData) :
    Grows F (place G check data) fun bb => tail bb ++ if bb = check then [G.nextInst] else [] where
  nextInst := grows.nextInst.trans (Nat.le_succ _)
  nextBlock := grows.nextBlock
  insts inst old := (grows.newInst data).insts inst old
  blockParams := grows.blockParams
  blockInsts bb old := by
    rw [place_blockInsts, grows.blockInsts bb old]
    split
    · next same =>
        rw [← same, grows.blockInsts bb old, Option.map_map]
        congr 1
        funext insts
        exact List.append_assoc ..
    · simp
  blocks below bb member := by
    rw [place_blocks] at member
    exact grows.blocks below bb member

end Grows

/-! ## The code of a tree -/

variable {x : Inst} {links : List Link} {default : BasicBlock × List Inst} {F G H : FunctionData}

/-- Where a search that found a link, or none, goes. -/
def arm (links : List Link) (default : BasicBlock × List Inst) : Option Nat → BasicBlock × List Inst
  | none => default
  | some i => (links[i]?).elim default fun link => (link.handler, link.handlerArgs)

/-- `%eq = eq x, k`. -/
structure Tests (x : Inst) (F G : FunctionData) (link : Link) (key eq : Inst) : Prop where
  newKey : New F G key
  newEq : New F G eq
  isKey : G.insts key = some ⟨.int32, .integer link.k⟩
  isEq : G.insts eq = some ⟨.int32, .binary .eq x key⟩

/-- Code that a search can be continued with: the instructions of a node, or an arm of a
branch. -/
inductive Code where
  | insts (insts : List Inst)
  | arm (target : BasicBlock × List Inst)

/-- The instructions and blocks that `G` has beyond `F` are those of a search tree. -/
inductive Realizes (x : Inst) (links : List Link) (default : BasicBlock × List Inst)
    (F G : FunctionData) : BinaryTree Nat → Code → Prop where
  | default : Realizes x links default F G .nil (.arm default)
  | block {t : BinaryTree Nat} {bb : BasicBlock} {insts : List Inst} (newBlock : NewBlock F G bb)
      (noParams : G.blockParams bb = []) (isBlock : G.blockInsts bb = some insts)
      (node : Realizes x links default F G t (.insts insts)) :
      Realizes x links default F G t (.arm (bb, []))
  | case {i : Nat} {link : Link} {key eq br : Inst} (isLink : links[i]? = some link)
      (tests : Tests x F G link key eq) (newBr : New F G br)
      (isBr : G.insts br =
        some ⟨.unit, .branch eq link.handler link.handlerArgs default.1 default.2⟩) :
      Realizes x links default F G (.node i .nil .nil) (.insts [eq, br])
  | split {i : Nat} {link : Link} {key eq br lt splitBr : Inst} {split : BasicBlock}
      {left right : BasicBlock × List Inst} {l r : BinaryTree Nat} (isLink : links[i]? = some link)
      (tests : Tests x F G link key eq) (newBr : New F G br)
      (isBr : G.insts br = some ⟨.unit, .branch eq link.handler link.handlerArgs split []⟩)
      (newSplit : NewBlock F G split) (noParams : G.blockParams split = [])
      (isBlock : G.blockInsts split = some [lt, splitBr]) (newLt : New F G lt)
      (isLt : G.insts lt = some ⟨.int32, .binary .lt x key⟩) (newSplitBr : New F G splitBr)
      (isSplitBr : G.insts splitBr = some ⟨.unit, .branch lt left.1 left.2 right.1 right.2⟩)
      (onLeft : Realizes x links default F G l (.arm left))
      (onRight : Realizes x links default F G r (.arm right)) :
      Realizes x links default F G (.node i l r) (.insts [eq, br])

variable {F' G' : FunctionData}

theorem New.mono {inst : Inst} (new : New F' G inst) (earlier : F.nextInst ≤ F'.nextInst)
    (later : G.nextInst ≤ G'.nextInst) : New F G' inst :=
  ⟨earlier.trans new.1, new.2.trans_le later⟩

theorem NewBlock.mono {bb : BasicBlock} (new : NewBlock F' G bb)
    (earlier : F.nextBlock ≤ F'.nextBlock) (later : G.nextBlock ≤ G'.nextBlock) :
    NewBlock F G' bb :=
  ⟨earlier.trans new.1, new.2.trans_le later⟩

/-- The code of a tree stays while nothing is added to its blocks. -/
theorem Realizes.grow {tail : BasicBlock → List Inst} {t : BinaryTree Nat} {code : Code}
    (realizes : Realizes x links default F' G t code)
    (earlier : F.nextInst ≤ F'.nextInst ∧ F.nextBlock ≤ F'.nextBlock) (grows : Grows G H tail)
    (apart : ∀ bb, NewBlock F' G bb → tail bb = []) : Realizes x links default F H t code := by
  have inst : ∀ {inst data}, New F' G inst → G.insts inst = some data →
      New F H inst ∧ H.insts inst = some data := fun new found =>
    ⟨new.mono earlier.1 grows.nextInst, (grows.insts _ new.2).trans found⟩
  have tests : ∀ {link key eq}, Tests x F' G link key eq → Tests x F H link key eq := fun tests =>
    ⟨(inst tests.newKey tests.isKey).1, (inst tests.newEq tests.isEq).1,
      (inst tests.newKey tests.isKey).2, (inst tests.newEq tests.isEq).2⟩
  have block : ∀ {bb insts}, NewBlock F' G bb → G.blockParams bb = [] →
      G.blockInsts bb = some insts →
        NewBlock F H bb ∧ H.blockParams bb = [] ∧ H.blockInsts bb = some insts := by
    intro bb insts new noParams isBlock
    refine ⟨new.mono earlier.2 grows.nextBlock, ?_, ?_⟩
    · rw [grows.blockParams bb new.2, noParams]
    · rw [grows.blockInsts bb new.2, isBlock, apart bb new, Option.map_some, List.append_nil]
  induction realizes with
  | default => exact .default
  | block newBlock noParams isBlock _ ih =>
    obtain ⟨newBlock', noParams', isBlock'⟩ := block newBlock noParams isBlock
    exact .block newBlock' noParams' isBlock' ih
  | case isLink isTest newBr isBr =>
    exact .case isLink (tests isTest) (inst newBr isBr).1 (inst newBr isBr).2
  | split isLink isTest newBr isBr newSplit noParams isBlock newLt isLt newSplitBr isSplitBr _ _
      ihLeft ihRight =>
      obtain ⟨newSplit', noParams', isBlock'⟩ := block newSplit noParams isBlock
      exact .split isLink (tests isTest) (inst newBr isBr).1 (inst newBr isBr).2 newSplit'
        noParams' isBlock' (inst newLt isLt).1 (inst newLt isLt).2 (inst newSplitBr isSplitBr).1
        (inst newSplitBr isSplitBr).2 ihLeft ihRight

/-! ## Building a node -/

section Node

variable {check : BasicBlock} {link : Link} {i : Nat}

variable {left right : BasicBlock × List Inst}

theorem caseNode_grows : Grows F (caseNode x link default check F) fun bb =>
    if bb = check then [F.nextInst + 1, F.nextInst + 2] else [] := by
  have grows := (((Grows.refl F).newInst ⟨.int32, .integer link.k⟩).place check
    ⟨.int32, .binary .eq x F.nextInst⟩).place check
      ⟨.unit, .branch (F.nextInst + 1) link.handler link.handlerArgs default.1 default.2⟩
  apply grows.congr
  intro bb _
  by_cases here : bb = check
  · simp [here]
  · simp [here]

theorem caseNode_realizes (isLink : links[i]? = some link) :
    Realizes x links default F (caseNode x link default check F) (.node i .nil .nil)
      (.insts [F.nextInst + 1, F.nextInst + 2]) := by
  have new : ∀ k : Nat, k < 3 → New F (caseNode x link default check F) (F.nextInst + k) :=
    fun k lt => ⟨Nat.le_add_right _ _, Nat.add_lt_add_left lt _⟩
  refine .case isLink ⟨new 0 (by decide), new 1 (by decide), ?_, ?_⟩ (new 2 (by decide)) ?_
  · simp [caseNode, Nat.add_assoc]
  · simp [caseNode]
  · simp [caseNode]

theorem splitNode_grows :
    Grows F (splitNode x link left right check F) fun bb =>
      if bb = check then [F.nextInst + 1, F.nextInst + 4] else [] := by
  have test := ((Grows.refl F).newInst ⟨.int32, .integer link.k⟩).place check
    ⟨.int32, .binary .eq x F.nextInst⟩
  have compare := (test.addBlock.place F.nextBlock ⟨.int32, .binary .lt x F.nextInst⟩).place
    F.nextBlock ⟨.unit, .branch (F.nextInst + 2) left.1 left.2 right.1 right.2⟩
  have node := compare.place check
    ⟨.unit, .branch (F.nextInst + 1) link.handler link.handlerArgs F.nextBlock []⟩
  apply node.congr
  intro bb old
  by_cases here : bb = check
  · simp [here, (here ▸ old).ne]
  · simp [here, old.ne]

theorem splitNode_realizes {K : FunctionData} {l r : BinaryTree Nat}
    (isLink : links[i]? = some link) (old : check < F.nextBlock)
    (blocks : ∀ bb ∈ F.blocks, bb < F.nextBlock)
    (onLeft : Realizes x links default H K l (.arm left))
    (onRight : Realizes x links default H K r (.arm right))
    (earlier : H.nextInst ≤ K.nextInst ∧ H.nextBlock ≤ K.nextBlock) (kept : Grows K F fun _ => [])
    (apart : ∀ bb, NewBlock H K bb → bb ≠ check) :
    Realizes x links default H (splitNode x link left right check F) (.node i l r)
      (.insts [F.nextInst + 1, F.nextInst + 4]) := by
  have new : ∀ k : Nat, k < 5 → New H (splitNode x link left right check F) (F.nextInst + k) :=
    fun k lt => ⟨(earlier.1.trans kept.nextInst).trans (Nat.le_add_right _ _),
      Nat.add_lt_add_left lt _⟩
  have newSplit : NewBlock H (splitNode x link left right check F) F.nextBlock :=
    ⟨earlier.2.trans kept.nextBlock, Nat.lt_succ_self _⟩
  have node : Grows F (splitNode x link left right check F) _ := splitNode_grows
  have grows := kept.trans node
  have elsewhere : ∀ bb, NewBlock H K bb →
      [] ++ (if bb = check then [F.nextInst + 1, F.nextInst + 4] else []) = [] := fun bb new => by
    rw [if_neg (apart bb new), List.append_nil]
  refine .split isLink ⟨new 0 (by decide), new 1 (by decide), ?_, ?_⟩ (new 4 (by decide)) ?_
    newSplit ?_ ?_ (new 2 (by decide)) ?_ (new 3 (by decide)) ?_
    (onLeft.grow ⟨le_rfl, le_rfl⟩ grows elsewhere) (onRight.grow ⟨le_rfl, le_rfl⟩ grows elsewhere)
  case refine_5 =>
    have empty : (addBlock (place (F.newInst ⟨.int32, .integer link.k⟩) check
        ⟨.int32, .binary .eq x F.nextInst⟩)).blockInsts F.nextBlock = some [] := by
      apply addBlock_blockInsts
      intro bb member
      rw [place_blocks] at member
      exact blocks bb member
    simp [splitNode, place_blockInsts, old.ne', empty]
  all_goals simp [splitNode, Nat.add_assoc]

end Node

/-! ## Building the tree -/

/-- What `buildTree` has built: the code of the balanced tree, in `intoBlock` behind the
instructions there if the range is the whole list, and in new blocks otherwise. -/
structure Built (x : Inst) (links : List Link) (default : BasicBlock × List Inst)
    (intoBlock : BasicBlock) (F : FunctionData) (lo hi : Nat) (G : FunctionData)
    (root : BasicBlock) (insts : List Inst) : Prop where
  realizes : Realizes x links default F G (SearchTree.balanced lo hi) (.insts insts)
  room : G.nextInst ≤ F.nextInst + 5 * (hi - lo)
  atRoot : lo = 0 ∧ hi = links.length → root = intoBlock ∧
    Grows F G fun bb => if bb = intoBlock then insts else []
  elsewhere : ¬ (lo = 0 ∧ hi = links.length) → NewBlock F G root ∧ G.blockParams root = [] ∧
    G.blockInsts root = some insts ∧ Grows F G fun _ => []

section Build

variable {intoBlock : BasicBlock} {lo hi i : Nat} {link : Link}

/-- A node, built in the block that is chosen for it. -/
theorem built_of_node {K : FunctionData} (size : Nat)
    (node : FunctionData → BasicBlock → FunctionData) {insts : FunctionData → List Inst}
    (blocks : ∀ bb ∈ F.blocks, bb < F.nextBlock) (inside : intoBlock < F.nextBlock)
    (before : Grows F K fun _ => []) (room : K.nextInst + size ≤ F.nextInst + 5 * (hi - lo))
    (sized : ∀ K' check, (node K' check).nextInst = K'.nextInst + size)
    (grows : ∀ K' check, Grows K' (node K' check) fun bb => if bb = check then insts K' else [])
    (realizes : ∀ K' check, Grows K K' (fun _ => []) → check < K'.nextBlock →
      (∀ bb, NewBlock F K bb → bb ≠ check) →
        Realizes x links default F (node K' check) (SearchTree.balanced lo hi)
          (.insts (insts K'))) :
    ∃ insts, Built x links default intoBlock F lo hi
      (node (nodeBlock links lo hi intoBlock K).1 (nodeBlock links lo hi intoBlock K).2)
      (nodeBlock links lo hi intoBlock K).2 insts := by
  by_cases whole : lo = 0 ∧ hi = links.length
  · rw [nodeBlock, if_pos whole]
    refine ⟨insts K, ?_, ?_, fun _ => ⟨rfl, ?_⟩, fun part => absurd whole part⟩
    · apply realizes K intoBlock (.refl K) (inside.trans_le before.nextBlock)
      exact fun bb new same => absurd (same ▸ new.1) inside.not_ge
    · exact (sized K intoBlock).trans_le room
    · exact (before.trans (grows K intoBlock)).congr fun bb _ => List.nil_append _
  · rw [nodeBlock, if_neg whole]
    have last : K.nextBlock < (addBlock K).nextBlock := Nat.lt_succ_self _
    have node' := grows (addBlock K) K.nextBlock
    refine ⟨insts (addBlock K), ?_, ?_, fun isWhole => absurd isWhole whole,
      fun _ => ⟨⟨before.nextBlock, last.trans_le node'.nextBlock⟩, ?_, ?_, ?_⟩⟩
    · exact realizes (addBlock K) K.nextBlock (Grows.refl K).addBlock last
        fun bb new => new.2.ne
    · exact (sized (addBlock K) K.nextBlock).trans_le room
    · rw [node'.blockParams _ last, addBlock_blockParams, Function.update_self]
    · rw [node'.blockInsts _ last, addBlock_blockInsts (before.blocks blocks), if_pos rfl]
      rfl
    · apply (before.addBlock.trans node').congr
      intro bb old
      rw [if_neg (old.trans_le before.nextBlock).ne]
      rfl

/-- A subtree, which is never the whole tree, or the default edge. -/
def subtree (x : Inst) (links : List Link) (default : BasicBlock × List Inst)
    (intoBlock : BasicBlock) (F : FunctionData) (lo hi : Nat) :
    Option (FunctionData × BasicBlock × List Inst) :=
  if lo < hi then
    (buildTree x links default intoBlock F lo hi).map fun (F, root) => (F, (root, []))
  else some (F, default)

theorem subtree_spec (F : FunctionData) (lo hi : Nat) (part : ¬ (lo = 0 ∧ hi = links.length))
    (built : lo < hi → ∃ G root insts,
      buildTree x links default intoBlock F lo hi = some (G, root) ∧
      Built x links default intoBlock F lo hi G root insts) :
    ∃ G target, subtree x links default intoBlock F lo hi = some (G, target) ∧
      Realizes x links default F G (SearchTree.balanced lo hi) (.arm target) ∧
      Grows F G (fun _ => []) ∧ G.nextInst ≤ F.nextInst + 5 * (hi - lo) := by
  by_cases range : lo < hi
  · obtain ⟨G, root, insts, result, built⟩ := built range
    obtain ⟨new, noParams, isBlock, grows⟩ := built.elsewhere part
    refine ⟨G, (root, []), ?_, .block new noParams isBlock built.realizes, grows, built.room⟩
    rw [subtree, if_pos range, result]
    rfl
  · refine ⟨F, default, if_neg range, ?_, .refl F, Nat.le_add_right _ _⟩
    rw [SearchTree.balanced_of_le (not_lt.mp range)]
    exact .default

variable (x default) in
theorem buildTree_spec (blocks : ∀ bb ∈ F.blocks, bb < F.nextBlock)
    (inside : intoBlock < F.nextBlock) (range : lo < hi) (within : hi ≤ links.length) :
    ∃ G root insts, buildTree x links default intoBlock F lo hi = some (G, root) ∧
      Built x links default intoBlock F lo hi G root insts := by
  induction size : hi - lo using Nat.strong_induction_on generalizing F lo hi with
  | _ size ih =>
    subst size
    have middle : lo ≤ lo + (hi - lo) / 2 ∧ lo + (hi - lo) / 2 < hi := by omega
    set mid := lo + (hi - lo) / 2 with isMid
    obtain ⟨link, isLink⟩ : ∃ link, links[mid]? = some link :=
      ⟨_, List.getElem?_eq_getElem (middle.2.trans_le within)⟩
    have tree : SearchTree.balanced lo hi =
        .node mid (SearchTree.balanced lo mid) (SearchTree.balanced (mid + 1) hi) := by
      rw [SearchTree.balanced, if_pos range]
    by_cases single : hi - lo = 1
    · have isLo : mid = lo := by omega
      have isHi : hi ≤ mid + 1 := by omega
      rw [SearchTree.balanced_of_le isLo.le, SearchTree.balanced_of_le isHi] at tree
      have room : F.nextInst + 3 ≤ F.nextInst + 5 * (hi - lo) := by omega
      obtain ⟨insts, built⟩ := built_of_node 3 (fun F check => caseNode x link default check F)
        blocks inside (.refl F) room (fun _ _ => rfl) (fun _ _ => caseNode_grows)
        (fun K' check kept _ _ => by
          rw [tree]
          exact (caseNode_realizes isLink).grow ⟨kept.nextInst, kept.nextBlock⟩ (.refl _)
            fun _ _ => rfl)
      refine ⟨_, _, insts, ?_, built⟩
      rw [buildTree, if_neg range.not_gt, if_pos single, ← isLo, isLink]
      rfl
    · obtain ⟨F₁, left, isLeft, onLeft, growsLeft, roomLeft⟩ :=
        subtree_spec F lo mid (by omega)
          fun some => ih (mid - lo) (by omega) blocks inside some (by omega) rfl
      obtain ⟨F₂, right, isRight, onRight, growsRight, roomRight⟩ :=
        subtree_spec F₁ (mid + 1) hi (by omega)
          fun some => ih (hi - (mid + 1)) (by omega) (growsLeft.blocks blocks)
            (inside.trans_le growsLeft.nextBlock) some (by omega) rfl
      have both : Grows F F₂ fun _ => [] := growsLeft.trans growsRight
      have room : F₂.nextInst + 5 ≤ F.nextInst + 5 * (hi - lo) := by omega
      obtain ⟨insts, built⟩ := built_of_node 5
        (fun F check => splitNode x link left right check F)
        blocks inside both room (fun _ _ => rfl) (fun _ _ => splitNode_grows)
        (fun K' check kept old apart => by
          rw [tree]
          exact splitNode_realizes isLink old (kept.blocks (both.blocks blocks))
            (onLeft.grow ⟨le_rfl, le_rfl⟩ growsRight fun _ _ => rfl)
            (onRight.grow ⟨growsLeft.nextInst, growsLeft.nextBlock⟩ (.refl F₂) fun _ _ => rfl)
            ⟨both.nextInst, both.nextBlock⟩ kept apart)
      refine ⟨_, _, insts, ?_, built⟩
      rw [buildTree, if_neg range.not_gt, if_neg single, ← isMid, isLink, Option.bind_some]
      show (subtree x links default intoBlock F lo mid).bind _ = _
      rw [isLeft]
      show (subtree x links default intoBlock F₁ (mid + 1) hi).map _ = _
      rw [isRight]
      rfl

end Build

/-! ## Executing the tree -/

/-- The activation stands where the code begins: at its first instruction, or at a branch that
takes the arm. -/
def Code.At (X : Ctx) (G : FunctionData) (m : Mem) (a : Activation) : Code → Prop
  | .insts code => a.rest = code
  | .arm target => ∃ br rest, a.rest = br :: rest ∧
      exec X G a m br = (X.operands G a.env target.2).map (.goto target.1)

/-- The constant of a link, as the signed number it is compared as. -/
def keyOf (links : List Link) (i : Nat) : Int := (links[i]?).elim 0 fun link => link.k.toInt

section Walk

variable {X : Ctx} {m : Mem} {a : Activation} {v : BitVec 32}

theorem operand_eq_of_env {env env' : Env} (same : env' x = env x) :
    X.operand G env' x = X.operand G env x := by
  unfold Ctx.operand
  rw [same]

theorem exec_decided {br cond : Inst} {ty : Ty} {yes no : BasicBlock} {yesArgs noArgs : List Inst}
    {c : BitVec 32} (isBr : G.insts br = some ⟨ty, .branch cond yes yesArgs no noArgs⟩)
    (decided : X.operand G a.env cond = some (.int c)) :
    exec X G a m br = if c ≠ 0 then (X.operands G a.env yesArgs).map (.goto yes)
      else (X.operands G a.env noArgs).map (.goto no) := by
  simp only [exec, isBr, decided]

/-- A comparison of `x` with a constant. -/
theorem exec_compare (watch : Function → Inst → Bool) {inst key : Inst} {rest : List Inst}
    {op : BinaryOp} {k r : BitVec 32} (isLocal : Inst.isGlobal inst = false)
    (keyLocal : Inst.isGlobal key = false) (current : a.rest = inst :: rest)
    (isInst : G.insts inst = some ⟨.int32, .binary op x key⟩)
    (isKey : G.insts key = some ⟨.int32, .integer k⟩) (value : X.operand G a.env x = some (.int v))
    (folds : foldBinary op v k = some r) : ∃ b es, Quiet watch X G m a es b ∧ b.rest = rest ∧
      X.operand G b.env inst = some (.int r) ∧ ∀ i, i ≠ inst → b.env i = a.env i := by
  have keyValue : X.operand G a.env key = some (.int k) := by
    simp [Ctx.operand, Ctx.instData, keyLocal, isKey, Ctx.isConst, Ctx.constVal]
  have effect : exec X G a m inst = some (.value (.int r)) := by
    simp [exec, isInst, Ctx.pureVal, value, keyValue, folds, Val.fit]
  refine ⟨_, _, Quiet.single_value current effect, ?_, ?_, ?_⟩
  · simp [Activation.define, current]
  · simp [Ctx.operand, Ctx.instData, isLocal, isInst, Ctx.isConst, Activation.define]
  · exact fun i differ => Activation.define_env_of_ne differ _

theorem find_node {i : Nat} {link : Link} (isLink : links[i]? = some link) (l r : BinaryTree Nat) :
    SearchTree.find (keyOf links) v.toInt (.node i l r) =
      if v = link.k then some i
      else if v.slt link.k then SearchTree.find (keyOf links) v.toInt l
      else SearchTree.find (keyOf links) v.toInt r := by
  have isKey : keyOf links i = link.k.toInt := by rw [keyOf, isLink, Option.elim_some]
  rw [SearchTree.find, isKey]
  simp only [BitVec.toInt_inj, BitVec.slt_iff_toInt_lt]

theorem truth_ne_zero {p : Bool} : truth p ≠ 0 ↔ p = true := by
  cases p <;> decide

/-- Executing the code of a tree follows the search in it. -/
theorem Realizes.walk (watch : Function → Inst → Bool) {t : BinaryTree Nat} {code : Code}
    (realizes : Realizes x links default F G t code) (room : G.nextInst ≤ globalIdStart)
    (old : ¬ New F G x) (begins : code.At X G m a) (value : X.operand G a.env x = some (.int v)) :
    ∃ b es, Quiet watch X G m a es b ∧
      (Code.arm (arm links default (SearchTree.find (keyOf links) v.toInt t))).At X G m b ∧
      ∀ i, ¬ New F G i → b.env i = a.env i := by
  have isLocal : ∀ {inst}, New F G inst → Inst.isGlobal inst = false := fun new =>
    decide_eq_false (new.2.trans_le room).not_ge
  have kept : ∀ {inst i}, New F G inst → ¬ New F G i → i ≠ inst := fun new notNew same =>
    notNew (same ▸ new)
  induction realizes generalizing a with
  | default => exact ⟨a, [], .refl a, begins, fun _ _ => rfl⟩
  | @block t bb insts newBlock noParams isBlock node ih =>
    obtain ⟨br, rest, current, effect⟩ := begins
    have entered : a.enterBlock G bb [] = some { a with block := bb, rest := insts } := by
      simp [Activation.enterBlock, noParams, isBlock, bindParams]
    obtain ⟨b, es, quiet, arrives, same⟩ :=
      ih (a := { a with block := bb, rest := insts }) rfl value
    exact ⟨b, _, .goto current effect entered quiet, arrives, same⟩
  | @case i link key eq br isLink tests newBr isBr =>
    obtain ⟨b, es, quiet, current, decided, same⟩ := exec_compare watch (isLocal tests.newEq)
      (isLocal tests.newKey) (show a.rest = [eq, br] from begins) tests.isEq tests.isKey value rfl
    refine ⟨b, es, quiet, ⟨br, [], current, ?_⟩, fun i notNew => same i (kept tests.newEq notNew)⟩
    rw [exec_decided isBr decided, find_node isLink]
    by_cases equal : v = link.k
    · rw [if_pos (truth_ne_zero.mpr (beq_iff_eq.mpr equal)), if_pos equal, arm, isLink]
      rfl
    · rw [if_neg (truth_ne_zero.not.mpr (by simpa using equal)), if_neg equal]
      simp [SearchTree.find, arm]
  | @split i link key eq br lt splitBr split left right l r isLink tests newBr isBr newSplit
      noParams
      isBlock newLt isLt newSplitBr isSplitBr onLeft onRight ihLeft ihRight =>
      obtain ⟨b, es, quiet, current, decided, same⟩ := exec_compare watch (isLocal tests.newEq)
        (isLocal tests.newKey) (show a.rest = [eq, br] from begins) tests.isEq tests.isKey value rfl
      have sameOld : ∀ i, ¬ New F G i → b.env i = a.env i := fun i notNew =>
        same i (kept tests.newEq notNew)
      have branches := exec_decided (m := m) isBr decided
      rw [find_node isLink]
      by_cases equal : v = link.k
      · rw [if_pos (truth_ne_zero.mpr (beq_iff_eq.mpr equal))] at branches
        refine ⟨b, es, quiet, ⟨br, [], current, ?_⟩, sameOld⟩
        rw [branches, if_pos equal, arm, isLink]
        rfl
      · rw [if_neg (truth_ne_zero.not.mpr (by simpa using equal))] at branches
        rw [if_neg equal]
        -- The comparison block is entered, and decides between the subtrees.
        have entered : b.enterBlock G split [] =
            some { b with block := split, rest := [lt, splitBr] } := by
          simp [Activation.enterBlock, noParams, isBlock, bindParams]
        have value' : X.operand G b.env x = some (.int v) :=
          (operand_eq_of_env (sameOld x old)).trans value
        obtain ⟨c, es', quiet', current', decided', same'⟩ :=
          exec_compare watch (m := m)
            (a := { b with block := split, rest := [lt, splitBr] }) (isLocal newLt)
            (isLocal tests.newKey) rfl isLt tests.isKey value' rfl
        have sameOld' : ∀ i, ¬ New F G i → c.env i = a.env i := fun i notNew =>
          (same' i (kept newLt notNew)).trans (sameOld i notNew)
        have value'' : X.operand G c.env x = some (.int v) :=
          (operand_eq_of_env (sameOld' x old)).trans value
        have toSplit := quiet.trans (.goto current branches entered quiet')
        have branches' := exec_decided (m := m) isSplitBr decided'
        by_cases less : v.slt link.k
        · rw [if_pos (truth_ne_zero.mpr less)] at branches'
          obtain ⟨d, es'', quiet'', arrives, same''⟩ := ihLeft ⟨splitBr, [], current',
            branches'⟩ value''
          rw [if_pos less]
          exact ⟨d, _, toSplit.trans quiet'', arrives, fun i notNew =>
            (same'' i notNew).trans (sameOld' i notNew)⟩
        · rw [if_neg (truth_ne_zero.not.mpr less)] at branches'
          obtain ⟨d, es'', quiet'', arrives, same''⟩ := ihRight ⟨splitBr, [], current',
            branches'⟩ value''
          rw [if_neg less]
          exact ⟨d, _, toSplit.trans quiet'', arrives, fun i notNew =>
            (same'' i notNew).trans (sameOld' i notNew)⟩

end Walk

/-! ## Deciding like the chain -/

section Decide

variable {intoBlock : BasicBlock} {lo hi : Nat}

/-- The link that a search in a range of sorted links finds. -/
theorem find_eq_some_iff (sorted : links.Pairwise fun first second => first.k.sle second.k)
    (distinct : (links.map Link.k).Nodup) (within : hi ≤ links.length) {v : BitVec 32} {i : Nat} :
    SearchTree.find (keyOf links) v.toInt (SearchTree.balanced lo hi) = some i ↔
      lo ≤ i ∧ i < hi ∧ ∃ link, links[i]? = some link ∧ link.k = v := by
  have isKey : ∀ {i : Nat} (inside : i < links.length), keyOf links i = links[i].k.toInt := by
    intro i inside
    rw [keyOf, List.getElem?_eq_getElem inside, Option.elim_some]
  rw [SearchTree.find_balanced_eq_some_iff]
  · refine and_congr_right fun _ => and_congr_right fun high => ?_
    have inside := high.trans_le within
    rw [isKey inside, List.getElem?_eq_getElem inside, BitVec.toInt_inj]
    simp
  · intro i j _ before high
    have inside := high.trans_le within
    rw [isKey inside, isKey (before.trans inside)]
    have le := List.pairwise_iff_getElem.mp sorted i j (before.trans inside) inside before
    have ne : links[i].k ≠ links[j].k := by
      have apart := List.pairwise_iff_getElem.mp distinct i j (by simpa using before.trans inside)
        (by simpa using inside) before
      simpa using apart
    exact lt_of_le_of_ne (BitVec.sle_iff_toInt_le.mp le) fun same => ne (BitVec.toInt_inj.mp same)

variable (default) in
/-- From the tree's instructions in the root, execution comes to a branch that takes the arm of
the one link with the value as its constant, and the default arm if there is none. -/
theorem buildTree_decides (blocks : ∀ bb ∈ F.blocks, bb < F.nextBlock) {before : List Inst}
    (isBlock : F.blockInsts intoBlock = some before)
    (sorted : links.Pairwise fun first second => first.k.sle second.k)
    (distinct : (links.map Link.k).Nodup) (range : lo < hi) (within : hi ≤ links.length)
    (room : F.nextInst + 5 * (hi - lo) ≤ globalIdStart) (old : x.isGlobal ∨ x < F.nextInst) :
    ∃ G root tree, buildTree x links default intoBlock F lo hi = some (G, root) ∧
      (lo = 0 ∧ hi = links.length → root = intoBlock) ∧
      G.blockInsts root =
        some ((if lo = 0 ∧ hi = links.length then before else []) ++ tree) ∧
      ∀ {World : Type} (S : Setting World) (a : Activation) (below : List Activation)
        (σ : Shared World) (v : BitVec 32), S.program.funcData a.func = some G → a.rest = tree →
        S.ctx.operand G a.env x = some (.int v) →
          ∃ b br rest found, S.Reaches (.running (a :: below) σ) (.running (b :: below) σ) ∧
            (∀ i : Inst, i.isGlobal ∨ i < F.nextInst → b.env i = a.env i) ∧ b.rest = br :: rest ∧
            exec S.ctx G b σ.mem br = (S.ctx.operands G b.env (arm links default found).2).map
              (.goto (arm links default found).1) ∧
            ∀ i, found = some i ↔ lo ≤ i ∧ i < hi ∧ ∃ link, links[i]? = some link ∧ link.k = v := by
  have inside := blocks intoBlock (FunctionData.mem_blocks isBlock)
  obtain ⟨G, root, tree, result, built⟩ :=
    buildTree_spec x default blocks inside range within
  have isOld : ∀ {i : Inst}, i.isGlobal ∨ i < F.nextInst → ¬ New F G i := by
    rintro i (isGlobal | lt) new
    · exact absurd (of_decide_eq_true isGlobal) (new.2.trans_le (built.room.trans room)).not_ge
    · exact absurd new.1 lt.not_ge
  refine ⟨G, root, tree, result, fun whole => (built.atRoot whole).1, ?_, ?_⟩
  · split
    · next whole =>
        obtain ⟨rfl, grows⟩ := built.atRoot whole
        rw [grows.blockInsts root inside, isBlock, if_pos rfl]
        rfl
    · next part => exact (built.elsewhere part).2.2.1
  · intro World S a below σ v data begins value
    obtain ⟨b, es, quiet, ⟨br, rest, current, effect⟩, same⟩ :=
      built.realizes.walk (fun _ _ => false) (m := σ.mem) (built.room.trans room) (isOld old)
        begins value
    have taken : S.Takes (fun _ _ => false) (.running (a :: below) σ) es
        (.running (b :: below) σ) := quiet.takes data
    obtain ⟨count, ran, _⟩ := taken
    exact ⟨b, br, rest, _, ⟨count, ran⟩, fun i known => same i (isOld known), current, effect,
      fun i => find_eq_some_iff sorted distinct within⟩

def fiveLinks : List Link :=
  [⟨1, -3, 2, [], 5, []⟩, ⟨5, 0, 3, [], 6, []⟩, ⟨6, 1, 4, [], 7, []⟩, ⟨7, 4, 2, [], 8, []⟩,
    ⟨8, 7, 3, [], 9, []⟩]

/-- A function whose parameter is tested. -/
def fiveTests : FunctionData where
  retTy := .int32
  name := "f"
  paramsTy := [.int32]
  params := [1]
  layout := [(1, []), (2, []), (3, []), (4, []), (9, [])]
  insts := fun inst => if inst = 1 then some ⟨.int32, .blockArgRef 0⟩ else none
  nextInst := 2
  blockParams := fun bb => if bb = 1 then [1] else []
  nextBlock := 10

theorem buildTree_decides_five :
    ∃ G tree, buildTree 1 fiveLinks (9, []) 1 fiveTests 0 5 = some (G, 1) ∧
      G.blockInsts 1 = some tree ∧
      ∀ {World : Type} (S : Setting World) (a : Activation) (σ : Shared World),
        S.program.funcData a.func = some G → a.rest = tree →
        S.ctx.operand G a.env 1 = some (.int (-3)) →
          ∃ b br rest, S.Reaches (.running [a] σ) (.running [b] σ) ∧ b.rest = br :: rest ∧
            exec S.ctx G b σ.mem br = some (.goto 2 []) := by
  have blocks : ∀ bb ∈ fiveTests.blocks, bb < fiveTests.nextBlock := by decide
  have isBlock : fiveTests.blockInsts 1 = some [] := rfl
  have sorted : fiveLinks.Pairwise fun first second => first.k.sle second.k := by decide
  have distinct : (fiveLinks.map Link.k).Nodup := by decide
  have range : 0 < 5 := by decide
  have within : 5 ≤ fiveLinks.length := by decide
  have room : fiveTests.nextInst + 5 * (5 - 0) ≤ globalIdStart := by decide
  have old : Inst.isGlobal 1 ∨ 1 < fiveTests.nextInst := .inr (by decide)
  obtain ⟨G, root, tree, result, isRoot, isTree, decides⟩ :=
    buildTree_decides (9, []) blocks isBlock sorted distinct range within room old
  obtain rfl := isRoot (by decide)
  refine ⟨G, tree, result, isTree, fun S a σ data begins value => ?_⟩
  obtain ⟨b, br, rest, found, reaches, _, current, effect, isFound⟩ :=
    decides S a [] σ (-3) data begins value
  obtain rfl := (isFound 0).mpr ⟨le_rfl, by decide, _, rfl, rfl⟩
  exact ⟨b, br, rest, reaches, current, effect⟩

end Decide

/-! ## The trees the pass builds -/

section Convert

variable {P : Program} {head : BasicBlock}

theorem detectFrom_distinct {rounds : Nat} {cur : BasicBlock} {y z : Option Inst}
    {links' : List Link} (detected : detectFrom P F rounds cur y links = some (z, links'))
    (distinct : (links.map Link.k).Nodup) : (links'.map Link.k).Nodup := by
  induction rounds generalizing cur y links with
  | zero => cases detected
  | succ rounds ih =>
    obtain ⟨insts, _, round⟩ := Option.bind_eq_some_iff.mp detected
    split at round
    · cases round
      exact distinct
    · next value link _ =>
        split at round
        · cases round
          exact distinct
        · split at round
          · cases round
            exact distinct
          · next fresh =>
              apply ih round
              rw [List.map_append, List.nodup_append]
              refine ⟨distinct, List.nodup_singleton _, ?_⟩
              intro k inLinks k' isNew same
              obtain ⟨before, member, isKey⟩ := List.mem_map.mp inLinks
              have twice : links.any (·.k = link.k) = true := by
                refine List.any_eq_true.mpr ⟨before, member, decide_eq_true ?_⟩
                rw [isKey, same]
                simpa using isNew
              simp [twice] at fresh

theorem detectChain_spec (detected : detectChain P F head = some (some (x, links, default))) :
    minChainLen ≤ links.length ∧ (links.map Link.k).Nodup := by
  obtain ⟨⟨y, links'⟩, from', checked⟩ := Option.map_eq_some_iff.mp detected
  have distinct := detectFrom_distinct from' List.nodup_nil
  dsimp only at checked
  split at checked
  · cases checked
  · next long =>
      split at checked
      · cases checked
      · split at checked
        · cases checked
          exact ⟨not_lt.mp long, distinct⟩
        · cases checked

theorem sle_mergeSort (links : List Link) :
    (links.mergeSort fun a b => a.k.sle b.k).Pairwise fun first second => first.k.sle second.k := by
  apply List.pairwise_mergeSort
  · intro a b c ab bc
    rw [BitVec.sle_iff_toInt_le] at *
    exact ab.trans bc
  · intro a b
    rw [Bool.or_eq_true, BitVec.sle_iff_toInt_le, BitVec.sle_iff_toInt_le]
    exact le_total _ _

/-- Where the pass converts a chain, the tree is built in the chain head, over the whole list of
links, with different constants in increasing order. -/
theorem convertChain_tree (converted : convertChain P F head = some (G, true)) :
    ∃ x links default H, detectChain P F head = some (some (x, links, default)) ∧
      ∃ sorted, sorted.Perm links ∧ 0 < sorted.length ∧
        (sorted.Pairwise fun first second => first.k.sle second.k) ∧
        (sorted.map Link.k).Nodup ∧
        buildTree x sorted default head F 0 sorted.length = some (H, head) := by
  obtain ⟨detected, isDetected, rest⟩ := Option.bind_eq_some_iff.mp converted
  match detected, rest with
  | none, rest => cases rest
  | some (x, links, default), rest =>
    obtain ⟨old, _, converts⟩ := Option.bind_eq_some_iff.mp rest
    obtain ⟨⟨H, root⟩, built, rooted⟩ := Option.bind_eq_some_iff.mp converts
    have isHead : root = head := by
      by_contra elsewhere
      exact Option.some_ne_none _ (rooted.symm.trans (if_pos elsewhere))
    subst isHead
    obtain ⟨long, distinct⟩ := detectChain_spec isDetected
    have perm := List.mergeSort_perm links fun a b => a.k.sle b.k
    refine ⟨x, links, default, H, isDetected, _, perm, ?_, sle_mergeSort links, ?_, built⟩
    · rw [perm.length_eq]
      exact Nat.lt_of_lt_of_le (by decide : 0 < minChainLen) long
    · exact (perm.map Link.k).nodup_iff.mpr distinct

end Convert

end AnonCompiler.Opt.ChainToSwitch
