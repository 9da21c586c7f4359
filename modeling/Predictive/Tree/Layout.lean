import Predictive.Tree.Basic

/-!
# Trees over several lines

One line for each node, in preorder, indented under its parent: a
branch mark before the last child differs from that before the others,
and a bar runs down beside the lines of every child but the last.
`layoutForm` is the same layout by plain recursion: the children's
lines, each behind the mark or the bar.
-/

namespace Predictive

namespace Tree

/-- The mark before the label of a child. -/
def branch (isLast : Bool) : Text := if isLast then "`-- " else "+-- "

/-- What stands before the lines below a child. -/
def stem (isLast : Bool) : Text := if isLast then "    " else "|   "

def markLast {α : Type} : List α → List (α × Bool)
  | [] => []
  | [a] => [(a, true)]
  | a :: b :: l => (a, false) :: markLast (b :: l)

@[simp] theorem map_fst_markLast {α : Type} (l : List α) : (markLast l).map Prod.fst = l := by
  induction l with
  | nil => rfl
  | cons a l ih => cases l <;> simp_all [markLast]

/-- A node whose line is still to be written: what stands before its
mark, the node, and whether it is a last child. -/
structure Pending where
  margin : Text
  node : Tree
  isLast : Bool

/-- The nodes to be written below a node, whose lines stand behind
`margin`. -/
def offspring (margin : Text) (t : Tree) : List Pending :=
  (markLast t.children).map fun (child, isLast) => ⟨margin, child, isLast⟩

theorem sizeAll_offspring (margin : Text) (t : Tree) :
    sizeAll ((offspring margin t).map Pending.node) = sizeAll t.children := by
  rw [offspring, List.map_map]
  show sizeAll ((markLast t.children).map Prod.fst) = _
  rw [map_fst_markLast]

/-- The lines of the pending nodes and of everything below them. -/
def linesFrom (pending : List Pending) : List Text :=
  match pending with
  | [] => []
  | p :: rest =>
    (p.margin ++ branch p.isLast ++ p.node.label) ::
      linesFrom (offspring (p.margin ++ stem p.isLast) p.node ++ rest)
termination_by sizeAll (pending.map Pending.node)
decreasing_by simp [sizeAll_offspring, size_eq p.node]

def layout (t : Tree) : List Text := t.label :: linesFrom (offspring [] t)

mutual
/-- The lines of the layout of a tree, by recursion on it. -/
def layoutForm : Tree → List Text
  | .node s b ts => (node s b ts).label :: layoutForms ts

/-- The lines below a node with the given children. -/
def layoutForms : List Tree → List Text
  | [] => []
  | t :: ts =>
    (match t.layoutForm with
      | [] => []
      | line :: more =>
        (branch ts.isEmpty ++ line) :: more.map (stem ts.isEmpty ++ ·)) ++ layoutForms ts
end

def layoutText (t : Tree) : Text := Text.join "\n" t.layout

end Tree

end Predictive
