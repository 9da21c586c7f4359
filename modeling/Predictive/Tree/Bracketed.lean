import Predictive.Tally
import Predictive.Tree.Basic

/-!
# Trees on one line

A leaf is written as its label, an inner node as its symbol followed by
its children in parentheses, one space between them. The printer visits
an inner node twice: first to put its children to work, then, when
their texts are at hand, to put these together. `bracketForm` is the
same text by plain recursion.
-/

namespace Predictive

namespace Tree

/-- The text of an inner node, given the texts of its children. -/
def enclose (s : Symbol) (parts : List Text) : Text :=
  s.text ++ "(" ++ Text.join " " parts ++ ")"

/-- A node still to be written: to be entered, or, its children being
written, to be left. -/
inductive Errand where
  | enter (t : Tree)
  | leave (s : Symbol) (children : Nat)

namespace Errand

/-- How much work an errand is, counted in visits. -/
def weight : Errand → Nat
  | .enter t => 2 * t.size
  | .leave .. => 1

def weightAll (errands : List Errand) : Nat := tally weight errands

theorem weightAll_enter (ts : List Tree) : weightAll (ts.map .enter) = 2 * sizeAll ts := by
  induction ts with
  | nil => rfl
  | cons t ts ih => simp_all [weightAll, weight, Nat.mul_add]

theorem weightAll_append (es es' : List Errand) :
    weightAll (es ++ es') = weightAll es + weightAll es' := by
  simp [weightAll]

/-- Runs errands in order; `parts` are the texts written so far, the
latest first. Leaving a node takes its children's texts off them. -/
def run (errands : List Errand) (parts : List Text) : List Text :=
  match errands with
  | [] => parts
  | .enter (.node s b []) :: rest => run rest ((node s b []).label :: parts)
  | .enter (.node s _ (t :: ts)) :: rest =>
    run ((t :: ts).map .enter ++ .leave s (t :: ts).length :: rest) parts
  | .leave s n :: rest => run rest (enclose s (parts.take n).reverse :: parts.drop n)
termination_by weightAll errands
decreasing_by
  · simp only [weightAll, weight, tally_cons, size_eq (.node s b [])]; omega
  · simp only [weightAll_append, weightAll_enter]
    simp only [weightAll, weight, tally_cons, size_eq (.node s _ (t :: ts)),
      children]
    omega
  · simp only [weightAll, weight, tally_cons]; omega

end Errand

def bracketed (t : Tree) : Text := (Errand.run [.enter t] []).headD []

mutual
/-- The tree on one line, by recursion on it. -/
def bracketForm : Tree → Text
  | .node s b [] => (node s b []).label
  | .node s _ (t :: ts) => enclose s (bracketForms (t :: ts))

def bracketForms : List Tree → List Text
  | [] => []
  | t :: ts => t.bracketForm :: bracketForms ts
end

end Tree

end Predictive
