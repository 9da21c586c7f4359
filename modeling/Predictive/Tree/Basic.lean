import Predictive.Symbol

/-!
# Parse trees

A node of a parse tree has a symbol, a mark that it was matched against
the input, and its children in order. An ε leaf stands below a node
that was replaced by the empty word.

Trees of right-recursive grammars are as deep as the input is long, so
the traversals that are run keep the nodes still to be visited in a
list (`walk`, and the printers built like it). What they compute is
said by the plain recursion beside them; `walk_eq_preorder` is the
first of these equations: a walk visits the nodes in preorder.
-/

namespace Predictive

inductive Tree where
  | node (symbol : Symbol) (isTerminal : Bool) (children : List Tree)

namespace Tree

instance : Inhabited Tree := ⟨.node default false []⟩

def symbol : Tree → Symbol
  | .node s _ _ => s

def isTerminal : Tree → Bool
  | .node _ b _ => b

def children : Tree → List Tree
  | .node _ _ ts => ts

/-- A node without children and without mark. -/
def bare (s : Symbol) : Tree := .node s false []

/-- A node that was matched against the input. -/
def matched (s : Symbol) : Tree := .node s true []

def isEpsilon (t : Tree) : Bool := t.symbol == .epsilon

/-! ## Equality -/

mutual
def beq : Tree → Tree → Bool
  | .node s b ts, .node s' b' ts' => s == s' && b == b' && beqAll ts ts'

def beqAll : List Tree → List Tree → Bool
  | [], [] => true
  | t :: ts, t' :: ts' => beq t t' && beqAll ts ts'
  | _, _ => false
end

mutual
theorem beq_iff : ∀ t t' : Tree, beq t t' = true ↔ t = t'
  | .node s b ts, .node s' b' ts' => by
    simp [beq, beqAll_iff ts ts', and_assoc]

theorem beqAll_iff : ∀ ts ts' : List Tree, beqAll ts ts' = true ↔ ts = ts'
  | [], [] => by simp [beqAll]
  | [], _ :: _ => by simp [beqAll]
  | _ :: _, [] => by simp [beqAll]
  | t :: ts, t' :: ts' => by simp [beqAll, beq_iff t t', beqAll_iff ts ts']
end

instance : DecidableEq Tree := fun t t' => decidable_of_iff _ (beq_iff t t')

/-! ## Size -/

mutual
def size : Tree → Nat
  | .node _ _ ts => 1 + sizeAll ts

def sizeAll : List Tree → Nat
  | [] => 0
  | t :: ts => t.size + sizeAll ts
end

theorem size_eq (t : Tree) : t.size = 1 + sizeAll t.children := by
  cases t; rw [size]; rfl

@[simp] theorem sizeAll_nil : sizeAll [] = 0 := by rw [sizeAll]

@[simp] theorem sizeAll_cons (t : Tree) (ts : List Tree) :
    sizeAll (t :: ts) = t.size + sizeAll ts := by rw [sizeAll]

@[simp] theorem sizeAll_append (ts ts' : List Tree) :
    sizeAll (ts ++ ts') = sizeAll ts + sizeAll ts' := by
  induction ts with
  | nil => simp
  | cons t ts ih => simp [ih, Nat.add_assoc]

/-! ## Walking -/

/-- The parent of a visited node: its number in the walk, and its
symbol. -/
structure Parent where
  number : Nat
  symbol : Symbol
deriving DecidableEq

/-- A node met on a walk, the how-manieth it is, and its parent. -/
structure Visit where
  number : Nat
  node : Tree
  parent : Option Parent
deriving DecidableEq

/-- Visits the pending nodes in order, each before its children and
these before the rest; the first visit is number `next`. -/
def walkFrom (next : Nat) (pending : List (Tree × Option Parent)) : List Visit :=
  match pending with
  | [] => []
  | (t, parent) :: rest =>
    ⟨next, t, parent⟩ ::
      walkFrom (next + 1) (t.children.map (·, some ⟨next, t.symbol⟩) ++ rest)
termination_by sizeAll (pending.map Prod.fst)
decreasing_by simp [size_eq t, Function.comp_def]

/-- Visits every node of a tree, a node before its children and these
from left to right, numbered from 0. -/
def walk (t : Tree) : List Visit := walkFrom 0 [(t, none)]

mutual
/-- The nodes of a tree, a node before its children. -/
def preorder : Tree → List Tree
  | .node s b ts => .node s b ts :: preorderAll ts

def preorderAll : List Tree → List Tree
  | [] => []
  | t :: ts => t.preorder ++ preorderAll ts
end

theorem preorder_eq (t : Tree) : t.preorder = t :: preorderAll t.children := by
  cases t; rw [preorder]; rfl

@[simp] theorem preorderAll_nil : preorderAll [] = [] := by rw [preorderAll]

@[simp] theorem preorderAll_cons (t : Tree) (ts : List Tree) :
    preorderAll (t :: ts) = t.preorder ++ preorderAll ts := by rw [preorderAll]

@[simp] theorem preorderAll_append (ts ts' : List Tree) :
    preorderAll (ts ++ ts') = preorderAll ts ++ preorderAll ts' := by
  induction ts with
  | nil => simp
  | cons t ts ih => simp [ih]

theorem map_node_walkFrom (next : Nat) (pending : List (Tree × Option Parent)) :
    (walkFrom next pending).map Visit.node = preorderAll (pending.map Prod.fst) := by
  induction next, pending using walkFrom.induct with
  | case1 => simp [walkFrom]
  | case2 next t parent rest ih =>
    rw [walkFrom]
    simp [ih, preorder_eq t, Function.comp_def]

/-- A walk visits the nodes in preorder. -/
theorem walk_eq_preorder (t : Tree) : t.walk.map Visit.node = t.preorder := by
  simp [walk, map_node_walkFrom]

/-! ## Leaves -/

/-- The nodes without children, from left to right. -/
def leaves (t : Tree) : List Tree := (t.walk.map Visit.node).filter (·.children.isEmpty)

/-- The text that the tree derives: its leaves one after another,
without the ε leaves. -/
def text (t : Tree) : Text := spell ((t.leaves.filter (!·.isEpsilon)).map symbol)

/-- A node as the printers label it: a matched one in brackets. -/
def label (t : Tree) : Text := if t.isTerminal then "[" ++ t.symbol.text ++ "]" else t.symbol.text

end Tree

end Predictive
