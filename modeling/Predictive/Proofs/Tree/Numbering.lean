import Predictive.Tree.Basic

/-!
# The numbers of a walk

A walk keeps the nodes still to be visited on a list and numbers them as
it comes to them. By plain recursion the same visits are known beforehand:
a tree whose root is number `n` takes as many numbers from `n` on as it
has nodes, and the next sibling of the root gets the number after these
(`visitForm`, `walk_eq_visitForm`). So the visits are numbered without a
gap (`map_number_walk`), and no node before its parent
(`parent_lt_of_mem_walk`). The edges of a tree are those that lead to the
visits from their parents (`edge?_walk`).
-/

namespace Predictive

namespace Tree

/-! ## Numbers by recursion -/

mutual
/-- The visits of a tree whose root is number `n`. -/
def visitForm (n : Nat) (parent : Option Parent) : Tree → List Visit
  | .node s b ts => ⟨n, .node s b ts, parent⟩ :: visitForms (n + 1) (some ⟨n, s⟩) ts

/-- The visits of siblings of which the first is number `n`. -/
def visitForms (n : Nat) (parent : Option Parent) : List Tree → List Visit
  | [] => []
  | t :: ts => visitForm n parent t ++ visitForms (n + t.size) parent ts
end

/-- The numbers of siblings of which the first is number `n`. -/
def numbersFrom (n : Nat) : List Tree → List Nat
  | [] => []
  | t :: ts => n :: numbersFrom (n + t.size) ts

variable {v : Visit}

mutual
theorem walkFrom_cons : ∀ (t : Tree) (n : Nat) (parent : Option Parent)
    (rest : List (Tree × Option Parent)),
    walkFrom n ((t, parent) :: rest) = visitForm n parent t ++ walkFrom (n + t.size) rest
  | .node s b ts, n, parent, rest => by
    have hbelow := walkFrom_siblings ts (n + 1) (some ⟨n, s⟩) rest
    rw [Nat.add_assoc] at hbelow
    rw [walkFrom, visitForm, size, List.cons_append, ← hbelow]
    rfl

theorem walkFrom_siblings : ∀ (ts : List Tree) (n : Nat) (parent : Option Parent)
    (rest : List (Tree × Option Parent)),
    walkFrom n (ts.map (·, parent) ++ rest) =
      visitForms n parent ts ++ walkFrom (n + sizeAll ts) rest
  | [], n, parent, rest => by
    rw [visitForms, sizeAll]
    rfl
  | t :: ts, n, parent, rest => by
    rw [List.map_cons, List.cons_append, walkFrom_cons t, walkFrom_siblings ts, visitForms,
      sizeAll, List.append_assoc, Nat.add_assoc]
end

theorem walk_eq_visitForm (t : Tree) : t.walk = visitForm 0 none t := by
  rw [walk, walkFrom_cons, walkFrom, List.append_nil]

/-! ## No gaps -/

mutual
theorem map_number_visitForm : ∀ (t : Tree) (n : Nat) (parent : Option Parent),
    (visitForm n parent t).map Visit.number = List.range' n t.size
  | .node s b ts, n, parent => by
    rw [visitForm, List.map_cons, map_number_visitForms ts, size, Nat.add_comm 1,
      List.range'_succ]

theorem map_number_visitForms : ∀ (ts : List Tree) (n : Nat) (parent : Option Parent),
    (visitForms n parent ts).map Visit.number = List.range' n (sizeAll ts)
  | [], n, parent => by
    rw [visitForms, sizeAll]
    rfl
  | t :: ts, n, parent => by
    rw [visitForms, List.map_append, map_number_visitForm t, map_number_visitForms ts, sizeAll,
      List.range'_append_1]
end

theorem map_number_walk (t : Tree) : t.walk.map Visit.number = List.range t.size := by
  rw [walk_eq_visitForm, map_number_visitForm, List.range_eq_range']

theorem length_walk (t : Tree) : t.walk.length = t.size := by
  have hlength := congrArg List.length (map_number_walk t)
  rwa [List.length_map, List.length_range] at hlength

theorem length_preorder (t : Tree) : t.preorder.length = t.size := by
  rw [← walk_eq_preorder, List.length_map, length_walk]

/-- The visits of a walk by their places: each is numbered by its own. -/
theorem number_of_getElem?_walk {t : Tree} {i : Nat} (h : t.walk[i]? = some v) : v.number = i := by
  have hi : (t.walk.map Visit.number)[i]? = some v.number := by
    rw [List.getElem?_map, h]
    rfl
  rw [map_number_walk, List.getElem?_range (length_walk t ▸ (List.getElem?_eq_some_iff.1 h).1)]
    at hi
  exact (Option.some.inj hi).symm

/-! ## Parents first -/

mutual
theorem parent_lt_of_mem_visitForm : ∀ (t : Tree) (n : Nat) (parent : Option Parent),
    (∀ p ∈ parent, p.number < n) → v ∈ visitForm n parent t → ∀ p ∈ v.parent, p.number < v.number
  | .node s b ts, n, parent, hparent, hv => by
    rw [visitForm] at hv
    rcases List.mem_cons.1 hv with rfl | hv
    · exact hparent
    · refine parent_lt_of_mem_visitForms ts (n + 1) (some ⟨n, s⟩) (fun p hp => ?_) hv
      obtain rfl := Option.some.inj hp
      exact Nat.lt_succ_self n

theorem parent_lt_of_mem_visitForms : ∀ (ts : List Tree) (n : Nat) (parent : Option Parent),
    (∀ p ∈ parent, p.number < n) → v ∈ visitForms n parent ts →
      ∀ p ∈ v.parent, p.number < v.number
  | [], n, parent, hparent, hv => by
    rw [visitForms] at hv
    cases hv
  | t :: ts, n, parent, hparent, hv => by
    rw [visitForms] at hv
    rcases List.mem_append.1 hv with hv | hv
    · exact parent_lt_of_mem_visitForm t n parent hparent hv
    · refine parent_lt_of_mem_visitForms ts (n + t.size) parent (fun p hp => ?_) hv
      exact Nat.lt_add_right _ (hparent p hp)
end

theorem parent_lt_of_mem_walk {t : Tree} (h : v ∈ t.walk) :
    ∀ p ∈ v.parent, p.number < v.number := by
  rw [walk_eq_visitForm] at h
  exact parent_lt_of_mem_visitForm t 0 none (fun p hp => nomatch hp) h

/-! ## Nodes and edges -/

/-- The visits of a walk are the nodes in preorder with their numbers. -/
theorem map_walk_eq_mapIdx {α : Type} (t : Tree) (f : Nat → Tree → α) :
    t.walk.map (fun v => f v.number v.node) = t.preorder.mapIdx f := by
  refine List.ext_getElem? fun i => ?_
  rw [List.getElem?_mapIdx, ← walk_eq_preorder, List.getElem?_map, List.getElem?_map]
  cases h : t.walk[i]? with
  | none => rfl
  | some v => simp [number_of_getElem?_walk h]

mutual
/-- The edges of a tree whose root is number `n`: from a node to each of
its children, by their numbers in preorder. -/
def edgesFrom (n : Nat) : Tree → List (Nat × Nat)
  | .node _ _ ts => edgesBelow n (n + 1) ts

/-- The edges to siblings of which the first is number `n`, and below
them. -/
def edgesBelow (parent n : Nat) : List Tree → List (Nat × Nat)
  | [] => []
  | t :: ts => (parent, n) :: edgesFrom n t ++ edgesBelow parent (n + t.size) ts
end

/-- The edge that leads to a visit. -/
def Visit.edge? (v : Visit) : Option (Nat × Nat) := v.parent.map fun p => (p.number, v.number)

mutual
theorem edge?_visitForm : ∀ (t : Tree) (n : Nat) (parent : Option Parent),
    (visitForm n parent t).filterMap Visit.edge? =
      (parent.map fun p => (p.number, n)).toList ++ edgesFrom n t
  | .node s b ts, n, parent => by
    have hbelow := edge?_visitForms ts (n + 1) ⟨n, s⟩
    rw [visitForm, edgesFrom, List.filterMap_cons, hbelow]
    cases parent <;> rfl

theorem edge?_visitForms : ∀ (ts : List Tree) (n : Nat) (parent : Parent),
    (visitForms n (some parent) ts).filterMap Visit.edge? = edgesBelow parent.number n ts
  | [], n, parent => by
    rw [visitForms, edgesBelow]
    rfl
  | t :: ts, n, parent => by
    rw [visitForms, edgesBelow, List.filterMap_append, edge?_visitForm t, edge?_visitForms ts]
    rfl
end

theorem edge?_walk (t : Tree) : t.walk.filterMap Visit.edge? = edgesFrom 0 t := by
  rw [walk_eq_visitForm, edge?_visitForm]
  rfl

end Tree

end Predictive
