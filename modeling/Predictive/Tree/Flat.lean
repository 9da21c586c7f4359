import Predictive.Tree.Basic

/-!
# Trees as lists of nodes

The flat form of a tree: its nodes in preorder, each with its number
and the numbers of its children. A deep tree has a shallow flat form.
`ofFlat?` follows the numbers from the root and builds the tree again.
-/

namespace Predictive

structure FlatNode where
  id : Nat
  symbol : Symbol
  isTerminal : Bool
  children : List Nat
deriving DecidableEq

namespace Tree

/-- The numbers of the visits whose parent is number `id`. -/
def childrenOf (id : Nat) (visits : List Visit) : List Nat :=
  (visits.filter fun v => v.parent.map Parent.number == some id).map Visit.number

/-- The nodes of a tree, numbered as they are visited. -/
def flat (t : Tree) : List FlatNode :=
  let visits := t.walk
  visits.map fun v => ⟨v.number, v.node.symbol, v.node.isTerminal, childrenOf v.number visits⟩

/-- The tree below a number in a list of flat nodes, at most `depth`
levels deep; `none` when a number leads nowhere or too deep. -/
def ofFlat? (nodes : List FlatNode) : Nat → Nat → Option Tree
  | 0, _ => none
  | depth + 1, id => do
    let node ← nodes.find? (·.id == id)
    let children ← node.children.mapM (ofFlat? nodes depth)
    return .node node.symbol node.isTerminal children

end Tree

end Predictive
