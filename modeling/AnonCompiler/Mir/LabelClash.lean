import AnonCompiler.Mir.Labels

/-!
# Which labels clash

What stands at the end of a label says what it is a label of: a block ends in its
number, an edge in `edge` and a number, a veneer in `veneer` and a number, the
end of a veneer in `end` (`kindOf_text`).  Two labels of one function are
therefore different, and labels of two functions are equal only for two blocks
or two edges, where a piece of the one function's name may have moved into the
name of the other's block (`labels_nodup_iff`).
-/

set_option autoImplicit false

namespace AnonCompiler.Mir.Labels

open Lib.JoinedNames

/-! ## Numbers -/

def digits (n : Nat) : List Char := (Nat.repr n).toList

theorem isDigit_of_mem_digits {n : Nat} {c : Char} (member : c ∈ digits n) : c.isDigit = true := by
  rw [digits, Nat.toList_repr] at member
  exact Nat.isDigit_of_mem_toDigits (by decide) (by decide) member

theorem digits_free (n : Nat) : '_' ∉ digits n := fun member =>
  absurd (isDigit_of_mem_digits member) (by decide)

theorem digits_inj {m n : Nat} (same : digits m = digits n) : m = n := by
  rw [digits, digits, Nat.toList_repr, Nat.toList_repr] at same
  rw [← Nat.ofDigitChars_ten_toDigits (n := m), same, Nat.ofDigitChars_ten_toDigits]

/-- A word that starts with a letter is not a number. -/
theorem digits_ne {n : Nat} {c : Char} {word : List Char} (letter : c.isDigit = false) :
    digits n ≠ c :: word := by
  intro same
  have := isDigit_of_mem_digits (same ▸ List.mem_cons_self : c ∈ digits n)
  rw [letter] at this
  cases this

/-! ## Names without a percent sign -/

def underscored (name : List Char) : List Char := name.map fun c => if c = '%' then '_' else c

theorem toList_sanitize (name : String) : (sanitize name).toList = underscored name.toList := by
  simp [sanitize, underscored]

theorem underscored_eq_self {name : List Char} (free : '%' ∉ name) : underscored name = name := by
  unfold underscored
  rw [List.map_congr_left (g := id), List.map_id]
  intro c member
  have differs : c ≠ '%' := by
    rintro rfl
    exact free member
  rw [if_neg differs, id]

theorem underscored_digits (n : Nat) : underscored (digits n) = digits n :=
  underscored_eq_self fun member => absurd (isDigit_of_mem_digits member) (by decide)

section

variable {name : String} (ident : isIdent name = true)
include ident

theorem isIdent_char {c : Char} (member : c ∈ name.toList) : (c = '_' || c.isAlphanum) = true := by
  unfold isIdent at ident
  cases chars : name.toList with
  | nil => simp [chars] at member
  | cons first rest =>
    rw [chars] at ident member
    obtain ⟨isFirst, isRest⟩ := Bool.and_eq_true_iff.mp ident
    rcases List.mem_cons.mp member with rfl | later
    · rcases Bool.or_eq_true_iff.mp isFirst with score | letter
      · simp [score]
      · simp [Char.isAlphanum, letter]
    · exact List.all_eq_true.mp isRest c later

theorem sanitize_ident : sanitize name = name := by
  apply String.toList_inj.mp
  rw [toList_sanitize]
  exact underscored_eq_self fun member => absurd (isIdent_char ident member) (by decide)

/-- An identifier does not start with a dot. -/
theorem ident_ne_dot {rest : List Char} : name.toList ≠ '.' :: rest := by
  intro same
  have := isIdent_char ident (c := '.') (by rw [same]; exact List.mem_cons_self)
  exact absurd this (by decide)

end

/-! ## The names of blocks -/

def edgeMark : List Char := "edge".toList
def veneerMark : List Char := "veneer".toList
def endMark : List Char := "end".toList

/-- The last word in a block's name, its number apart, is not a mark. -/
def Unmarked (name : List Char) : Prop :=
  lastPart '_' name ≠ edgeMark ∧ lastPart '_' name ≠ veneerMark

theorem unmarked_of_join {text : String} (front : String) (back : List Char)
    (joined : text.toList = front.toList ++ '_' :: back) (plain : underscored back = back)
    (free : '_' ∉ back) (differs : back ≠ edgeMark ∧ back ≠ veneerMark) :
    Unmarked (underscored text.toList) := by
  have last : lastPart '_' (underscored text.toList) = back := by
    rw [joined, underscored, List.map_append, List.map_cons, if_neg (by decide), lastPart_append]
    exact (congrArg _ plain).trans (lastPart_eq_self free)
  exact ⟨last ▸ differs.1, last ▸ differs.2⟩

theorem digits_unmarked (n : Nat) : digits n ≠ edgeMark ∧ digits n ≠ veneerMark :=
  ⟨digits_ne (by decide), digits_ne (by decide)⟩

theorem fixedBases_unmarked : ∀ base ∈ fixedBases, '%' ∉ base.toList ∧
    lastPart '_' base.toList ≠ edgeMark ∧ lastPart '_' base.toList ≠ veneerMark := by
  decide +kernel

theorem numbered_toList (base : String) (id : Nat) :
    (numbered base id).toList = base.toList ++ '_' :: digits id := by
  simp [numbered, digits]

theorem unmarked_numbered {text : String} (front : String) (id : Nat)
    (joined : text.toList = front.toList ++ '_' :: digits id) :
    Unmarked (underscored text.toList) :=
  unmarked_of_join front _ joined (underscored_digits id) (digits_free id) (digits_unmarked id)

/-- A number with its sign. -/
theorem unmarked_signed {text : String} (front : String) (k : Int)
    (joined : text.toList = front.toList ++ '_' :: (Int.repr k).toList) :
    Unmarked (underscored text.toList) := by
  cases k with
  | ofNat n => exact unmarked_numbered front n joined
  | negSucc n =>
    have signed : (Int.repr (.negSucc n)).toList = '-' :: digits (n + 1) := by
      simp [Int.repr, digits]
    rw [signed] at joined
    apply unmarked_of_join front _ joined
    · exact congrArg ('-' :: ·) (underscored_digits (n + 1))
    · intro member
      rcases List.mem_cons.mp member with same | later
      · exact absurd same (by decide)
      · exact digits_free _ later
    · exact ⟨fun same => absurd (List.cons.inj same).1 (by decide),
        fun same => absurd (List.cons.inj same).1 (by decide)⟩

theorem BlockBase.unmarked (base : BlockBase) : Unmarked (underscored base.text.toList) := by
  cases base with
  | fixed base known =>
    obtain ⟨plain, differs⟩ := fixedBases_unmarked base known
    rw [BlockBase.text, underscored_eq_self plain]
    exact differs
  | chainCase k => exact unmarked_signed "chain_case" k.toInt (by simp [text])
  | chainCheck k => exact unmarked_signed "chain_check" k.toInt (by simp [text])
  | chainSplit k => exact unmarked_signed "chain_split" k.toInt (by simp [text])
  | unroll name iteration => exact unmarked_numbered _ iteration (numbered_toList _ iteration)
  | irh base id =>
    apply unmarked_numbered ("irh_" ++ base.text) id
    simp [text, numbered_toList]
  | inline name source =>
    apply unmarked_of_join (name ++ "_" ++ source) "inline".toList
    · simp [text]
    all_goals decide
  | inlineCont name =>
    apply unmarked_of_join (name ++ "_inline") "cont".toList
    · simp [text]
    all_goals decide
  | tailrecCont name =>
    apply unmarked_of_join (name ++ "_tailrec") "cont".toList
    · simp [text]
    all_goals decide

namespace EmittedFunction

variable (F : EmittedFunction)

/-- The name of a block ends in its number. -/
theorem bbName_toList {lb : LoweredBlock} (member : lb ∈ F.order) (bb : BasicBlock)
    (among : bb ∈ lb.blocks) :
    ∃ front, (F.bbName bb).toList = front ++ '_' :: digits bb ∧ Unmarked front := by
  obtain ⟨name, found⟩ := Option.isSome_iff_exists.mp (F.inArena lb member bb among)
  obtain ⟨base, rfl⟩ := F.allocated.data_eq found
  refine ⟨underscored base.text.toList, ?_, base.unmarked⟩
  rw [bbName, found, Option.getD_some, toList_sanitize, numbered_toList, underscored,
    List.map_append, List.map_cons, if_neg (by decide)]
  exact congrArg (_ ++ '_' :: ·) (underscored_digits bb)

end EmittedFunction

/-! ## What a label is a label of -/

inductive Kind where
  | function
  | block
  | edge
  | veneer
  | veneerEnd
deriving DecidableEq, Repr

/-- Read off the end of a label. -/
def kindOf (label : List Char) : Kind :=
  if label.head? ≠ some '.' then .function
  else if lastPart '_' label = endMark then .veneerEnd
  else if lastPart '_' (frontPart '_' label) = edgeMark then .edge
  else if lastPart '_' (frontPart '_' label) = veneerMark then .veneer
  else .block

inductive Label where
  | function
  | lowered (lb : LoweredBlock)
  | veneer (id : Nat)
  | veneerEnd (id : Nat)
deriving DecidableEq, Repr

namespace Label

def kind : Label → Kind
  | function => .function
  | lowered (.orig _) => .block
  | lowered (.edge ..) => .edge
  | veneer _ => .veneer
  | veneerEnd _ => .veneerEnd

def text (F : EmittedFunction) : Label → String
  | function => F.name
  | lowered lb => formatBlockLabel lb F
  | veneer id => veneerName F.name id
  | veneerEnd id => veneerName F.name id ++ "_end"

end Label

namespace EmittedFunction

def sources (F : EmittedFunction) : List Label :=
  .function :: (F.order.map .lowered ++
    (List.range F.veneers).flatMap fun id => [.veneer id, .veneerEnd id])

variable {F G : EmittedFunction}

theorem labels_eq (F : EmittedFunction) : F.labels = F.sources.map (Label.text F) := by
  simp [labels, sources, Label.text, List.map_flatMap, Function.comp_def]

theorem lowered_mem_sources {lb : LoweredBlock} : .lowered lb ∈ F.sources ↔ lb ∈ F.order := by
  simp [sources]

theorem sources_nodup (F : EmittedFunction) : F.sources.Nodup := by
  apply List.nodup_cons.mpr
  refine ⟨by simp, List.nodup_append.mpr ⟨?_, ?_, ?_⟩⟩
  · exact F.order_nodup.map fun lb lb' same => Label.lowered.inj same
  · apply List.nodup_flatMap.mpr
    refine ⟨fun id _ => by simp, List.nodup_range.imp ?_⟩
    intro id id' differ
    simp [Function.onFun, List.Disjoint, differ]
  · simp only [List.mem_map, List.mem_flatMap]
    rintro _ ⟨lb, -, rfl⟩ _ ⟨id, -, isVeneer⟩ rfl
    simp at isVeneer

/-! ### Labels as lists of characters -/

def labelStart (F : EmittedFunction) : List Char := ".L_".toList ++ F.name.toList

theorem labelStart_head (F : EmittedFunction) (rest : List Char) :
    (F.labelStart ++ rest).head? = some '.' := rfl

theorem lowered_toList (ident : isIdent F.name = true) (lb : LoweredBlock) :
    (formatBlockLabel lb F).toList = F.labelStart ++ '_' :: (F.tail lb).toList := by
  simp [formatBlockLabel, labelStart, sanitize_ident ident]

theorem veneer_toList (F : EmittedFunction) (id : Nat) :
    (veneerName F.name id).toList = (F.labelStart ++ '_' :: veneerMark) ++ '_' :: digits id := by
  have mark : "_veneer_".toList = '_' :: veneerMark ++ ['_'] := by decide
  rw [veneerName, String.toList_append, String.toList_append, String.toList_append, mark,
    ← labelStart, ← digits, ← List.append_assoc, List.append_assoc, List.singleton_append]

theorem veneerEnd_toList (F : EmittedFunction) (id : Nat) :
    (veneerName F.name id ++ "_end").toList =
      ((F.labelStart ++ '_' :: veneerMark) ++ '_' :: digits id) ++ '_' :: endMark := by
  rw [String.toList_append, veneer_toList]
  rfl

theorem edge_toList (F : EmittedFunction) (pred succ : BasicBlock) (i : Nat) :
    (F.tail (.edge pred succ i)).toList =
      ((F.bbName pred ++ "_to_" ++ F.bbName succ).toList ++ '_' :: edgeMark) ++
        '_' :: digits i := by
  simp [tail, edgeMark, digits]

/-- A number at the end is the last part, whatever stands before it. -/
theorem lastPart_digits (front : List Char) (n : Nat) :
    lastPart '_' (front ++ '_' :: digits n) = digits n := by
  rw [lastPart_append, lastPart_eq_self (digits_free n)]

theorem kindOf_numbered {front : List Char} {n : Nat} (dot : front.head? = some '.') :
    kindOf (front ++ '_' :: digits n) =
      if lastPart '_' front = edgeMark then .edge
      else if lastPart '_' front = veneerMark then .veneer
      else .block := by
  have start : (front ++ '_' :: digits n).head? = some '.' := by
    rw [List.head?_append, dot, Option.some_or]
  have notEnd : lastPart '_' (front ++ '_' :: digits n) ≠ endMark := by
    rw [lastPart_digits]
    exact digits_ne (by decide)
  rw [kindOf, if_neg (not_not.mpr start), if_neg notEnd, frontPart_append (digits_free n)]

theorem kindOf_text (ident : isIdent F.name = true) {l : Label} (member : l ∈ F.sources) :
    kindOf (l.text F).toList = l.kind := by
  cases l with
  | function =>
    apply if_pos
    intro dot
    obtain ⟨rest, same⟩ := List.head?_eq_some_iff.mp dot
    exact ident_ne_dot ident same
  | lowered lb =>
    rw [lowered_mem_sources] at member
    cases lb with
    | orig bb =>
      obtain ⟨front, named, unmarked⟩ := F.bbName_toList member bb (List.mem_singleton_self bb)
      rw [Label.text, lowered_toList ident, tail, named, ← List.cons_append, ← List.append_assoc,
        kindOf_numbered (labelStart_head F _), lastPart_append, if_neg unmarked.1,
        if_neg unmarked.2, Label.kind]
    | edge pred succ i =>
      rw [Label.text, lowered_toList ident, edge_toList, ← List.cons_append,
        ← List.append_assoc, kindOf_numbered (labelStart_head F _), ← List.cons_append,
        ← List.append_assoc, lastPart_append, if_pos (by decide), Label.kind]
  | veneer id =>
    rw [Label.text, veneer_toList, kindOf_numbered (labelStart_head F _), lastPart_append,
      if_neg (by decide), if_pos (by decide), Label.kind]
  | veneerEnd id =>
    have start : (veneerName F.name id ++ "_end").toList.head? = some '.' := by
      rw [veneerEnd_toList]
      rfl
    have last : lastPart '_' (veneerName F.name id ++ "_end").toList = endMark := by
      rw [veneerEnd_toList, lastPart_append]
      decide
    rw [Label.text, kindOf, if_neg (not_not.mpr start), if_pos last, Label.kind]

/-! ### Labels that are equal -/

theorem kind_eq (identF : isIdent F.name = true) (identG : isIdent G.name = true) {l l' : Label}
    (member : l ∈ F.sources) (member' : l' ∈ G.sources) (same : l.text F = l'.text G) :
    l.kind = l'.kind := by
  rw [← kindOf_text identF member, ← kindOf_text identG member', same]

theorem labelStart_inj (same : F.labelStart = G.labelStart) : F.name = G.name :=
  String.toList_inj.mp (List.append_cancel_left same)

theorem veneerName_inj {id id' : Nat} (same : veneerName F.name id = veneerName G.name id') :
    F.name = G.name ∧ id = id' := by
  have chars := congrArg String.toList same
  rw [veneer_toList, veneer_toList, append_inj (digits_free _) (digits_free _)] at chars
  exact ⟨labelStart_inj (List.append_cancel_right chars.1), digits_inj chars.2⟩

theorem lowered_eq_iff (identF : isIdent F.name = true) (identG : isIdent G.name = true)
    (lb lb' : LoweredBlock) :
    formatBlockLabel lb F = formatBlockLabel lb' G ↔
      F.name.toList ++ '_' :: (F.tail lb).toList = G.name.toList ++ '_' :: (G.tail lb').toList := by
  rw [← String.toList_inj, lowered_toList identF, lowered_toList identG, labelStart, labelStart,
    List.append_assoc, List.append_assoc, List.append_right_inj]

/-- Within one function the name of a block belongs to one block only. -/
theorem bbName_inj {lb lb' : LoweredBlock} (member : lb ∈ F.order) (member' : lb' ∈ F.order)
    {bb bb' : BasicBlock} (among : bb ∈ lb.blocks) (among' : bb' ∈ lb'.blocks)
    (same : F.bbName bb = F.bbName bb') : bb = bb' := by
  obtain ⟨front, named, -⟩ := F.bbName_toList member bb among
  obtain ⟨front', named', -⟩ := F.bbName_toList member' bb' among'
  rw [same, named', append_inj (digits_free _) (digits_free _)] at named
  exact (digits_inj named.2).symm

/-- What an edge says of its two blocks. -/
def ends (F : EmittedFunction) (pred succ : BasicBlock) : String :=
  F.bbName pred ++ "_to_" ++ F.bbName succ

section

variable {pred succ pred' succ' : BasicBlock} {i i' : Nat}

theorem edge_tail_eq_iff {front front' : List Char} :
    front ++ (F.tail (.edge pred succ i)).toList = front' ++
      (G.tail (.edge pred' succ' i')).toList ↔
      front ++ (F.ends pred succ).toList = front' ++ (G.ends pred' succ').toList ∧ i = i' := by
  rw [edge_toList, edge_toList]
  simp only [← List.append_assoc]
  rw [append_inj (digits_free _) (digits_free _), List.append_left_inj]
  exact and_congr_right fun _ => ⟨digits_inj, fun same => same ▸ rfl⟩

theorem ends_inj (member : .edge pred succ i ∈ F.order) (member' : .edge pred' succ' i' ∈ F.order)
    (same : F.ends pred succ = F.ends pred' succ') : pred = pred' ∧ succ = succ' := by
  obtain ⟨front, named, -⟩ := F.bbName_toList member succ (by simp [LoweredBlock.blocks])
  obtain ⟨front', named', -⟩ := F.bbName_toList member' succ' (by simp [LoweredBlock.blocks])
  have isSucc : succ = succ' := by
    have chars := congrArg String.toList same
    simp only [ends, String.toList_append, named, named'] at chars
    simp only [← List.append_assoc] at chars
    exact digits_inj ((append_inj (digits_free _) (digits_free _)).mp chars).2
  subst isSucc
  have isPred : F.bbName pred = F.bbName pred' := by
    have chars := congrArg String.toList same
    simp only [ends, String.toList_append, List.append_left_inj] at chars
    exact String.toList_inj.mp chars
  exact ⟨bbName_inj member member' (by simp [LoweredBlock.blocks])
    (by simp [LoweredBlock.blocks]) isPred, rfl⟩

theorem edge_tail_inj (member : .edge pred succ i ∈ F.order)
    (member' : .edge pred' succ' i' ∈ F.order)
    (same : (F.tail (.edge pred succ i)).toList = (F.tail (.edge pred' succ' i')).toList) :
    pred = pred' ∧ succ = succ' ∧ i = i' := by
  have joined : [] ++ (F.tail (.edge pred succ i)).toList =
      [] ++ (F.tail (.edge pred' succ' i')).toList := congrArg ([] ++ ·) same
  obtain ⟨isEnds, isIndex⟩ := edge_tail_eq_iff.mp joined
  rw [List.nil_append, List.nil_append] at isEnds
  obtain ⟨isPred, isSucc⟩ := ends_inj member member' (String.toList_inj.mp isEnds)
  exact ⟨isPred, isSucc, isIndex⟩

end

/-- The labels of one function are distinct. -/
theorem labels_nodup (F : EmittedFunction) (ident : isIdent F.name = true) : F.labels.Nodup := by
  rw [labels_eq]
  apply (List.nodup_map_iff_inj_on F.sources_nodup).mpr
  intro l member l' member' same
  have kinds := kind_eq ident ident member member' same
  cases l with
  | function =>
    cases l' with
    | function => rfl
    | lowered lb' => cases lb' <;> cases kinds
    | veneer id' => cases kinds
    | veneerEnd id' => cases kinds
  | lowered lb =>
    cases l' with
    | function => cases lb <;> cases kinds
    | lowered lb' =>
      rw [lowered_mem_sources] at member member'
      have tails := (lowered_eq_iff ident ident lb lb').mp same
      rw [List.append_right_inj, List.cons_inj_right] at tails
      cases lb with
      | orig bb =>
        cases lb' with
        | orig bb' =>
          rw [bbName_inj member member' (List.mem_singleton_self bb)
            (List.mem_singleton_self bb') (String.toList_inj.mp tails)]
        | edge pred' succ' i' => cases kinds
      | edge pred succ i =>
        cases lb' with
        | orig bb' => cases kinds
        | edge pred' succ' i' =>
          obtain ⟨rfl, rfl, rfl⟩ := edge_tail_inj member member' tails
          rfl
    | veneer id' => cases lb <;> cases kinds
    | veneerEnd id' => cases lb <;> cases kinds
  | veneer id =>
    cases l' with
    | function => cases kinds
    | lowered lb' => cases lb' <;> cases kinds
    | veneer id' => rw [(veneerName_inj same).2]
    | veneerEnd id' => cases kinds
  | veneerEnd id =>
    cases l' with
    | function => cases kinds
    | lowered lb' => cases lb' <;> cases kinds
    | veneer id' => cases kinds
    | veneerEnd id' =>
      rw [(veneerName_inj ((String.append_left_inj "_end").mp same)).2]

/-! ## Labels of two functions -/

/-- What is left of the name of `G` after the name of `F`, and the block of `G`, are the block of
`F`. -/
def Continued (F G : EmittedFunction) (lb lb' : LoweredBlock) : Prop :=
  ∃ w, G.name = F.name ++ "_" ++ w ∧
    (F.tail lb).toList = (w ++ "_").toList ++ (G.tail lb').toList

theorem continued_orig_iff {bb bb' : BasicBlock} :
    F.Continued G (.orig bb) (.orig bb') ↔
      ∃ w, G.name = F.name ++ "_" ++ w ∧ F.bbName bb = w ++ "_" ++ G.bbName bb' := by
  simp only [Continued, tail, ← String.toList_append, String.toList_inj]

theorem continued_edge_iff {pred succ pred' succ' : BasicBlock} {i i' : Nat} :
    F.Continued G (.edge pred succ i) (.edge pred' succ' i') ↔
      ∃ w, G.name = F.name ++ "_" ++ w ∧
        F.ends pred succ = w ++ "_" ++ G.ends pred' succ' ∧ i = i' := by
  unfold Continued
  refine exists_congr fun w => and_congr_right fun _ => ?_
  rw [← List.nil_append (F.tail _).toList, edge_tail_eq_iff, List.nil_append,
    ← String.toList_append, String.toList_inj]

theorem lowered_clash_iff (identF : isIdent F.name = true) (identG : isIdent G.name = true)
    (differ : F.name ≠ G.name) (lb lb' : LoweredBlock) :
    formatBlockLabel lb F = formatBlockLabel lb' G ↔
      F.Continued G lb lb' ∨ G.Continued F lb' lb := by
  have toString : ∀ {name front : String} {piece : List Char},
      name.toList = front.toList ++ '_' :: piece ↔ name = front ++ "_" ++ String.ofList piece := by
    intro name front piece
    rw [← String.toList_inj]
    simp
  have back : ∀ {piece rest : List Char},
      piece ++ '_' :: rest = (String.ofList piece ++ "_").toList ++ rest := by simp
  rw [lowered_eq_iff identF identG, join_eq_join_iff]
  constructor
  · rintro (⟨same, -⟩ | ⟨piece, isName, isTail⟩ | ⟨piece, isName, isTail⟩)
    · exact absurd (String.toList_inj.mp same) differ
    · exact .inl ⟨String.ofList piece, toString.mp isName, isTail.trans back⟩
    · exact .inr ⟨String.ofList piece, toString.mp isName, isTail.trans back⟩
  · rintro (⟨w, isName, isTail⟩ | ⟨w, isName, isTail⟩)
    · exact .inr (.inl ⟨w.toList, by simp [isName], by simp [isTail]⟩)
    · exact .inr (.inr ⟨w.toList, by simp [isName], by simp [isTail]⟩)

theorem namesApart_iff :
    F.NamesApart G ↔ F.name ≠ G.name ∧ ∀ lb ∈ F.order, ∀ lb' ∈ G.order,
      (Label.lowered lb).kind = (Label.lowered lb').kind → ¬ F.Continued G lb lb' := by
  constructor
  · intro apart
    refine ⟨apart.name, fun lb member lb' member' kinds continued => ?_⟩
    cases lb with
    | orig bb =>
      cases lb' with
      | orig bb' =>
        obtain ⟨w, isName, isBlock⟩ := continued_orig_iff.mp continued
        exact apart.blocks w isName bb member bb' member' isBlock
      | edge pred' succ' i' => cases kinds
    | edge pred succ i =>
      cases lb' with
      | orig bb' => cases kinds
      | edge pred' succ' i' =>
        obtain ⟨w, isName, isEdge, rfl⟩ := continued_edge_iff.mp continued
        exact apart.edges w isName pred succ i member pred' succ' member' isEdge
  · rintro ⟨differ, apart⟩
    refine ⟨differ, ?_, ?_⟩
    · intro w isName bb member bb' member' isBlock
      exact apart _ member _ member' rfl (continued_orig_iff.mpr ⟨w, isName, isBlock⟩)
    · intro w isName pred succ i member pred' succ' member' isEdge
      exact apart _ member _ member' rfl (continued_edge_iff.mpr ⟨w, isName, isEdge, rfl⟩)

theorem labels_disjoint_iff (identF : isIdent F.name = true) (identG : isIdent G.name = true) :
    F.labels.Disjoint G.labels ↔ F.NamesApart G ∧ G.NamesApart F := by
  have known : ∀ {H : EmittedFunction} {l : Label}, l ∈ H.sources → l.text H ∈ H.labels := by
    intro H l member
    rw [labels_eq]
    exact List.mem_map_of_mem member
  constructor
  · intro apart
    have differ : F.name ≠ G.name := by
      intro same
      have inF : F.name ∈ F.labels := List.mem_cons_self
      have inG : G.name ∈ G.labels := List.mem_cons_self
      rw [← same] at inG
      exact apart inF inG
    have clash : ∀ lb ∈ F.order, ∀ lb' ∈ G.order,
        formatBlockLabel lb F ≠ formatBlockLabel lb' G := by
      intro lb member lb' member' same
      have inF : formatBlockLabel lb F ∈ F.labels := known (lowered_mem_sources.mpr member)
      have inG : formatBlockLabel lb' G ∈ G.labels := known (lowered_mem_sources.mpr member')
      rw [← same] at inG
      exact apart inF inG
    simp only [ne_eq, lowered_clash_iff identF identG differ, not_or] at clash
    exact ⟨namesApart_iff.mpr ⟨differ, fun lb member lb' member' _ =>
        (clash lb member lb' member').1⟩,
      namesApart_iff.mpr ⟨differ.symm, fun lb member lb' member' _ =>
        (clash lb' member' lb member).2⟩⟩
  · rintro ⟨apart, apart'⟩ label inF inG
    obtain ⟨differ, apart⟩ := namesApart_iff.mp apart
    obtain ⟨-, apart'⟩ := namesApart_iff.mp apart'
    rw [labels_eq] at inF inG
    obtain ⟨l, member, rfl⟩ := List.mem_map.mp inF
    obtain ⟨l', member', same⟩ := List.mem_map.mp inG
    have kinds := kind_eq identG identF member' member same
    cases l with
    | function =>
      cases l' with
      | function => exact differ same.symm
      | lowered lb' => cases lb' <;> cases kinds
      | veneer id' => cases kinds
      | veneerEnd id' => cases kinds
    | lowered lb =>
      cases l' with
      | function => cases lb <;> cases kinds
      | lowered lb' =>
        rw [lowered_mem_sources] at member member'
        rcases (lowered_clash_iff identF identG differ lb lb').mp same.symm with
          continued | continued
        · exact apart lb member lb' member' kinds.symm continued
        · exact apart' lb' member' lb member kinds continued
      | veneer id' => cases lb <;> cases kinds
      | veneerEnd id' => cases lb <;> cases kinds
    | veneer id =>
      cases l' with
      | function => cases kinds
      | lowered lb' => cases lb' <;> cases kinds
      | veneer id' => exact differ (veneerName_inj same).1.symm
      | veneerEnd id' => cases kinds
    | veneerEnd id =>
      cases l' with
      | function => cases kinds
      | lowered lb' => cases lb' <;> cases kinds
      | veneer id' => cases kinds
      | veneerEnd id' =>
        exact differ (veneerName_inj ((String.append_left_inj "_end").mp same)).1.symm

end EmittedFunction

/-! ## All labels -/

theorem globalName_inj {ident ident' : String} (same : globalName ident = globalName ident') :
    ident = ident' := (String.append_right_inj "gv_").mp same

/-- The labels of an assembly are distinct exactly when the names they are joined from are apart. -/
theorem labels_nodup_iff (P : EmittedProgram) : P.labels.Nodup ↔ P.Apart := by
  have globals : (P.globals.map globalName).Nodup := P.globals_nodup.map fun _ _ => globalName_inj
  have clash : (∀ label ∈ P.globals.map globalName,
      ∀ label' ∈ P.functions.flatMap EmittedFunction.labels, label ≠ label') ↔
      ∀ ident ∈ P.globals, ∀ F ∈ P.functions, F.name ≠ globalName ident := by
    constructor
    · intro apart ident member F inP same
      refine apart (globalName ident) (List.mem_map_of_mem member) F.name ?_ same.symm
      exact List.mem_flatMap.mpr ⟨F, inP, List.mem_cons_self⟩
    · intro apart label member label' member' same
      obtain ⟨ident, known, rfl⟩ := List.mem_map.mp member
      obtain ⟨F, inP, inF⟩ := List.mem_flatMap.mp member'
      rw [F.labels_eq] at inF
      obtain ⟨l, isLabel, rfl⟩ := List.mem_map.mp inF
      -- the label of a variable starts with a letter, so it is the name of a function
      have isKind : kindOf (l.text F).toList = .function := by
        rw [← same]
        apply if_pos
        simp [globalName]
      rw [EmittedFunction.kindOf_text (P.functionIdent F inP) isLabel] at isKind
      cases l with
      | function => exact apart ident known F inP same.symm
      | lowered lb => cases lb <;> cases isKind
      | veneer id => cases isKind
      | veneerEnd id => cases isKind
  have functions : (P.functions.flatMap EmittedFunction.labels).Nodup ↔
      P.functions.Pairwise fun F G => F.NamesApart G ∧ G.NamesApart F := by
    rw [List.nodup_flatMap]
    constructor
    · rintro ⟨-, apart⟩
      exact apart.imp_of_mem fun inP inP' => (EmittedFunction.labels_disjoint_iff
        (P.functionIdent _ inP) (P.functionIdent _ inP')).mp
    · intro apart
      refine ⟨fun F inP => F.labels_nodup (P.functionIdent F inP), ?_⟩
      exact apart.imp_of_mem fun inP inP' => (EmittedFunction.labels_disjoint_iff
        (P.functionIdent _ inP) (P.functionIdent _ inP')).mpr
  rw [EmittedProgram.labels, List.nodup_append, clash, functions]
  constructor
  · rintro ⟨-, apart, apartGlobals⟩
    exact ⟨apartGlobals, apart⟩
  · intro apart
    exact ⟨globals, apart.functions, apart.globals⟩

/-- A function of one block, as the frontend lowers `int name() { return …; }`. -/
def oneBlock (name : String) : EmittedFunction where
  name := name
  arena := (BasicBlockArena.new.alloc (.fixed "entry" (by decide))).1
  allocated := .alloc .new _
  order := [.orig 1]
  order_nodup := List.nodup_singleton _
  inArena := by decide
  veneers := 0

/-- `int x; int gv_x() { return x; } int main() { x = 3; return gv_x(); }` -/
def variableAndFunction : EmittedProgram where
  globals := ["x"]
  functions := [oneBlock "gv_x", oneBlock "main"]
  globals_nodup := List.nodup_singleton _
  functionIdent := by decide

theorem variableAndFunction_clash : ¬ variableAndFunction.labels.Nodup := by
  intro nodup
  have apart := (List.nodup_append.mp nodup).2.2
  refine apart (globalName "x") (List.mem_singleton_self _) "gv_x" ?_ (by decide)
  exact List.mem_flatMap.mpr ⟨oneBlock "gv_x", List.mem_cons_self, List.mem_cons_self⟩

end AnonCompiler.Mir.Labels
