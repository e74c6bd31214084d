/-
# Cctools.Theory.Precedence -- operators of several ranks between operands

The tree of a list of operands with operators between them: an operator of a higher rank
binds tighter, and operators of one rank associate to the left.  There is exactly one such
tree (`associate_wellRanked`, `wellRanked_unique`), and climbing over the ranks finds its value
(`climbs_eval`).
-/
import Mathlib.Data.List.Basic
import Mathlib.Tactic.Common

namespace Cctools.Theory

set_option autoImplicit false

variable {Op α β : Type}

/-- A first operand, and operators that each have an operand behind them. -/
structure Operands (Op α : Type) where
  first : α
  others : List (Op × α)

inductive RankTree (Op α : Type)
  | leaf (value : α)
  | node (op : Op) (left right : RankTree Op α)

namespace RankTree

def first : RankTree Op α → α
  | leaf value => value
  | node _ left _ => left.first

def others : RankTree Op α → List (Op × α)
  | leaf _ => []
  | node op left right => left.others ++ (op, right.first) :: right.others

/-- The operands of a tree, read from left to right. -/
def operands (tree : RankTree Op α) : Operands Op α := ⟨tree.first, tree.others⟩

def eval (apply : Op → β → β → β) (value : α → β) : RankTree Op α → β
  | leaf operand => value operand
  | node op left right => apply op (left.eval apply value) (right.eval apply value)

def map (f : α → β) : RankTree Op α → RankTree Op β
  | leaf operand => leaf (f operand)
  | node op left right => node op (left.map f) (right.map f)

theorem eval_map (apply : Op → β → β → β) (f : α → β) (tree : RankTree Op α) :
    (tree.map f).eval apply id = tree.eval apply f := by
  induction tree with
  | leaf operand => rfl
  | node op left right leftIH rightIH => rw [map, eval, eval, leftIH, rightIH]

/-- What is a single operand, or is joined by an operator whose rank is as required. -/
def RootIs (rank : Op → Nat) (P : Nat → Prop) : RankTree Op α → Prop
  | leaf _ => True
  | node op _ _ => P (rank op)

/-- **Higher ranks bind tighter, equal ranks associate to the left.** -/
def WellRanked (rank : Op → Nat) : RankTree Op α → Prop
  | leaf _ => True
  | node op left right =>
    left.RootIs rank (rank op ≤ ·) ∧ right.RootIs rank (rank op < ·) ∧ left.WellRanked rank ∧ right.WellRanked rank

/-- One more operand at the end. -/
def attach (rank : Op → Nat) (op : Op) (value : α) : RankTree Op α → RankTree Op α
  | leaf first => node op (leaf first) (leaf value)
  | node root left right =>
    if rank op ≤ rank root then node op (node root left right) (leaf value)
    else node root left (right.attach rank op value)

section Attach

variable {rank : Op → Nat} {op : Op} {value : α}

theorem attach_first (tree : RankTree Op α) : (tree.attach rank op value).first = tree.first := by
  cases tree with
  | leaf first => rfl
  | node root left right => by_cases low : rank op ≤ rank root <;> simp [attach, low, first]

theorem attach_others (tree : RankTree Op α) : (tree.attach rank op value).others = tree.others ++ [(op, value)] := by
  induction tree with
  | leaf first => rfl
  | node root left right _ ih =>
    by_cases low : rank op ≤ rank root
    · simp [attach, low, others, first]
    · simp [attach, low, others, attach_first, ih]

/-- The new root is the old one or the operator attached. -/
theorem attach_rootIs {P : Nat → Prop} {tree : RankTree Op α} (old : tree.RootIs rank P) (new : P (rank op)) :
    (tree.attach rank op value).RootIs rank P := by
  cases tree with
  | leaf first => exact new
  | node root left right =>
    by_cases low : rank op ≤ rank root
    · simpa [attach, low, RootIs] using new
    · simpa [attach, low, RootIs] using old

theorem attach_map (f : α → β) (tree : RankTree Op α) :
    (tree.attach rank op value).map f = (tree.map f).attach rank op (f value) := by
  induction tree with
  | leaf first => rfl
  | node root left right _ ih => by_cases low : rank op ≤ rank root <;> simp [attach, map, low, ih]

theorem attach_wellRanked {tree : RankTree Op α} (good : tree.WellRanked rank) :
    (tree.attach rank op value).WellRanked rank := by
  induction tree with
  | leaf first => exact ⟨trivial, trivial, trivial, trivial⟩
  | node root left right _ ih =>
    obtain ⟨leftRoot, rightRoot, leftGood, rightGood⟩ := good
    by_cases low : rank op ≤ rank root
    · simp only [attach, low, if_true]
      exact ⟨low, trivial, ⟨leftRoot, rightRoot, leftGood, rightGood⟩, trivial⟩
    · simp only [attach, low, if_false]
      exact ⟨leftRoot, attach_rootIs rightRoot (Nat.lt_of_not_le low), leftGood, ih rightGood⟩

end Attach

end RankTree

namespace Operands

open RankTree

/-- The tree of the operands: they are attached from left to right. -/
def associate (rank : Op → Nat) (operands : Operands Op α) : RankTree Op α :=
  operands.others.foldl (fun tree other => tree.attach rank other.1 other.2) (.leaf operands.first)

theorem foldl_attach (rank : Op → Nat) (others : List (Op × α)) (tree : RankTree Op α) (good : tree.WellRanked rank) :
    (others.foldl (fun tree other => tree.attach rank other.1 other.2) tree).WellRanked rank ∧
      (others.foldl (fun tree other => tree.attach rank other.1 other.2) tree).operands =
        ⟨tree.first, tree.others ++ others⟩ := by
  induction others generalizing tree with
  | nil => simpa [RankTree.operands] using good
  | cons other others ih =>
    have next := ih _ (@attach_wellRanked _ _ rank other.1 other.2 _ good)
    simpa [attach_first, attach_others] using next

/-- **The tree of the operands is well ranked, and has them from left to right.** -/
theorem associate_wellRanked (rank : Op → Nat) (operands : Operands Op α) :
    (operands.associate rank).WellRanked rank ∧ (operands.associate rank).operands = operands := by
  have both := foldl_attach rank operands.others (.leaf operands.first) trivial
  exact ⟨both.1, both.2⟩

def map (f : α → β) (operands : Operands Op α) : Operands Op β :=
  ⟨f operands.first, operands.others.map fun other => (other.1, f other.2)⟩

theorem associate_map (rank : Op → Nat) (f : α → β) (operands : Operands Op α) :
    (operands.map f).associate rank = (operands.associate rank).map f := by
  have each (others : List (Op × α)) (tree : RankTree Op α) :
      (others.map fun other => (other.1, f other.2)).foldl (fun tree other => tree.attach rank other.1 other.2)
          (tree.map f) =
        (others.foldl (fun tree other => tree.attach rank other.1 other.2) tree).map f := by
    induction others generalizing tree with
    | nil => rfl
    | cons other others ih => simp [← attach_map, ih]
  exact each operands.others (.leaf operands.first)

end Operands

/-! ## Climbing -/

/-- The operators that follow leave a tree with this root alone. -/
def StopsAt (rank : Op → Nat) (level : Nat) (others : List (Op × α)) : Prop :=
  ∀ other ∈ others.head?, rank other.1 ≤ level

/-- `Climbs level left others result rest`: from a left operand on, operators above `level` are applied, each to
a right operand that was climbed above its rank; `rest` begins with an operator that is not above `level`. -/
inductive Climbs (rank : Op → Nat) (apply : Op → β → β → β) (value : α → β) :
    Nat → β → List (Op × α) → β → List (Op × α) → Prop
  | stops {level : Nat} {left : β} {others : List (Op × α)} (low : StopsAt rank level others) :
      Climbs rank apply value level left others left others
  | applies {level : Nat} {left right result : β} {op : Op} {next : α} {others after rest : List (Op × α)}
      (high : level < rank op) (operand : Climbs rank apply value (rank op) (value next) others right after)
      (goesOn : Climbs rank apply value level (apply op left right) after result rest) :
      Climbs rank apply value level left ((op, next) :: others) result rest

section Climbs

variable {rank : Op → Nat} {apply : Op → β → β → β} {value : α → β}

theorem Climbs.unique {level : Nat} {left result result' : β} {others rest rest' : List (Op × α)}
    (climbs : Climbs rank apply value level left others result rest)
    (climbs' : Climbs rank apply value level left others result' rest') : result = result' ∧ rest = rest' := by
  induction climbs generalizing result' rest' with
  | stops low =>
    cases climbs' with
    | stops low' => exact ⟨rfl, rfl⟩
    | applies high' operand' goesOn' => exact absurd (low _ rfl) (Nat.not_le.mpr high')
  | applies high operand goesOn operandSame goesOnSame =>
    cases climbs' with
    | stops low' => exact absurd (low' _ rfl) (Nat.not_le.mpr high)
    | applies high' operand' goesOn' =>
      obtain ⟨rfl, rfl⟩ := operandSame operand'
      exact goesOnSame goesOn'

theorem Climbs.suffix {level : Nat} {left result : β} {others rest : List (Op × α)}
    (climbs : Climbs rank apply value level left others result rest) : rest <:+ others := by
  induction climbs with
  | stops low => exact List.suffix_rfl
  | applies high operand goesOn operandSuffix goesOnSuffix =>
    exact (goesOnSuffix.trans operandSuffix).trans (List.suffix_cons _ _)

/-- Over the operands of a well ranked tree one climbs to its value. -/
theorem climbs_tree {tree : RankTree Op α} (good : tree.WellRanked rank) {level : Nat} {more rest : List (Op × α)}
    {result : β} (above : tree.RootIs rank (level < ·)) (stops : tree.RootIs rank (StopsAt rank · more))
    (goesOn : Climbs rank apply value level (tree.eval apply value) more result rest) :
    Climbs rank apply value level (value tree.first) (tree.others ++ more) result rest := by
  induction tree generalizing level more result rest with
  | leaf operand => exact goesOn
  | node op left right leftIH rightIH =>
    obtain ⟨leftRoot, rightRoot, leftGood, rightGood⟩ := good
    rw [RankTree.others, List.append_assoc, List.cons_append]
    -- the operators of the left tree have at least the root's rank, those of the right tree a higher one
    refine leftIH leftGood ?_ ?_ (.applies above ?_ goesOn)
    · cases left with
      | leaf operand => trivial
      | node inner _ _ => exact Nat.lt_of_lt_of_le above leftRoot
    · cases left with
      | leaf operand => trivial
      | node inner _ _ =>
        intro other isHead
        cases isHead
        exact leftRoot
    · refine rightIH rightGood rightRoot ?_ (.stops stops)
      cases right with
      | leaf operand => trivial
      | node inner _ _ => exact fun other isHead => Nat.le_trans (stops other isHead) (Nat.le_of_lt rightRoot)

/-- **Climbing from the lowest level finds the value of a well ranked tree.** -/
theorem climbs_eval (rank : Op → Nat) (apply : Op → β → β → β) (value : α → β) (positive : ∀ op, 0 < rank op) {tree : RankTree Op α} (good : tree.WellRanked rank) :
    Climbs rank apply value 0 (value tree.first) tree.others (tree.eval apply value) [] := by
  have above : tree.RootIs rank (0 < ·) := by cases tree <;> simp [RankTree.RootIs, positive]
  have stops : tree.RootIs rank (StopsAt rank · ([] : List (Op × α))) := by
    cases tree <;> simp [RankTree.RootIs, StopsAt]
  have all := climbs_tree good above stops (.stops (by simp [StopsAt]) : Climbs rank apply value 0 _ _ _ _)
  rwa [List.append_nil] at all

theorem RankTree.eval_node (tree : RankTree Op α) : tree.eval RankTree.node RankTree.leaf = tree := by
  induction tree with
  | leaf operand => rfl
  | node op left right leftIH rightIH => rw [eval, leftIH, rightIH]

/-- **There is one well ranked tree of some operands.** -/
theorem wellRanked_unique (positive : ∀ op, 0 < rank op) {tree tree' : RankTree Op α} (good : tree.WellRanked rank)
    (good' : tree'.WellRanked rank) (same : tree.operands = tree'.operands) : tree = tree' := by
  have climbs := climbs_eval rank RankTree.node RankTree.leaf positive good
  have climbs' := climbs_eval rank RankTree.node RankTree.leaf positive good'
  rw [RankTree.operands, RankTree.operands, Operands.mk.injEq] at same
  rw [RankTree.eval_node, same.1, same.2] at climbs
  rw [RankTree.eval_node] at climbs'
  exact (climbs.unique climbs').1

end Climbs

end Cctools.Theory
