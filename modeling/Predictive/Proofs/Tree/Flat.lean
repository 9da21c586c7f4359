import Mathlib.Data.List.Induction
import Predictive.Proofs.Tree.Numbering
import Predictive.Proofs.Tree.Yield
import Predictive.Tree.Flat

/-!
# Flat trees

The flat form of a tree is written while the tree is walked: each node
that is visited gets a record behind those that are there, and its number
is put into the record of its parent, which was written before
(`record`). At any time the records are the flat form of what was visited
so far (`foldl_record`), and a whole subtree adds to what was there the
records that plain recursion gives it, and its number to those of its
parent (`foldl_record_visitForm`). So the flat form is that of the
recursion: a node is numbered in preorder, and its children are numbered
by the sizes of the siblings before them (`flat_eq_flatForm`).
-/

namespace Predictive

namespace FlatNode

/-- The record of a node that was just visited. -/
def opened (id : Nat) (t : Tree) : FlatNode := ⟨id, t.symbol, t.isTerminal, []⟩

def extend (ids : List Nat) (r : FlatNode) : FlatNode := { r with children := r.children ++ ids }

end FlatNode

namespace Tree

variable {n : Nat} {made : List FlatNode}

/-! ## Records by recursion -/

mutual
/-- The records of a tree whose root is number `n`. -/
def flatForm (n : Nat) : Tree → List FlatNode
  | .node s b ts => ⟨n, s, b, numbersFrom (n + 1) ts⟩ :: flatForms (n + 1) ts

/-- The records of siblings of which the first is number `n`. -/
def flatForms (n : Nat) : List Tree → List FlatNode
  | [] => []
  | t :: ts => flatForm n t ++ flatForms (n + t.size) ts
end

mutual
theorem map_id_flatForm : ∀ (t : Tree) (n : Nat),
    (flatForm n t).map FlatNode.id = List.range' n t.size
  | .node s b ts, n => by
    rw [flatForm, List.map_cons, map_id_flatForms ts, size, Nat.add_comm 1, List.range'_succ]

theorem map_id_flatForms : ∀ (ts : List Tree) (n : Nat),
    (flatForms n ts).map FlatNode.id = List.range' n (sizeAll ts)
  | [], n => by
    rw [flatForms, sizeAll]
    rfl
  | t :: ts, n => by
    rw [flatForms, List.map_append, map_id_flatForm t, map_id_flatForms ts, sizeAll,
      List.range'_append_1]
end

theorem length_flatForm (t : Tree) (n : Nat) : (flatForm n t).length = t.size := by
  have hlength := congrArg List.length (map_id_flatForm t n)
  rwa [List.length_map, List.length_range'] at hlength

/-! ## Records as they are written -/

/-- The records after a visit. -/
def record (made : List FlatNode) (v : Visit) : List FlatNode :=
  let opened := made ++ [.opened made.length v.node]
  match v.parent with
  | none => opened
  | some parent => opened.modify parent.number (.extend [made.length])

theorem extend_nil : FlatNode.extend [] = id := funext fun r => by simp [FlatNode.extend]

theorem extend_comp (ids ids' : List Nat) :
    FlatNode.extend ids' ∘ FlatNode.extend ids = FlatNode.extend (ids ++ ids') :=
  funext fun r => by simp [FlatNode.extend]

theorem modify_append_of_lt {α : Type} {l : List α} {i : Nat} (hi : i < l.length) (l' : List α)
    (f : α → α) : (l ++ l').modify i f = l.modify i f ++ l' := by
  induction l generalizing i with
  | nil => cases hi
  | cons a l ih =>
    cases i with
    | zero => rfl
    | succ i => simpa using ih (Nat.lt_of_succ_lt_succ hi)

theorem modify_append_singleton {α : Type} {l : List α} {i : Nat} (hi : l.length = i) (a : α)
    (f : α → α) : (l ++ [a]).modify i f = l ++ [f a] := by
  subst hi
  induction l with
  | nil => rfl
  | cons b l ih => simpa using ih

theorem record_root {v : Visit} (h : v.parent = none) :
    record made v = made ++ [.opened made.length v.node] := by
  rw [record, h]

theorem record_child {v : Visit} {parent : Parent} (h : v.parent = some parent)
    (hparent : parent.number < made.length) :
    record made v =
      made.modify parent.number (.extend [made.length]) ++ [.opened made.length v.node] := by
  rw [record, h]
  exact modify_append_of_lt hparent _ _

mutual
/-- A subtree leaves its number in the record of its parent, and its
records behind all others. -/
theorem foldl_record_visitForm : ∀ (t : Tree) (n : Nat) (parent : Parent) (made : List FlatNode),
    made.length = n → parent.number < n →
      (visitForm n (some parent) t).foldl record made =
        made.modify parent.number (.extend [n]) ++ flatForm n t
  | .node s b ts, n, parent, made, hlength, hparent => by
    subst hlength
    have hopened : (made.modify parent.number (.extend [made.length])).length = made.length :=
      List.length_modify ..
    rw [visitForm, List.foldl_cons, record_child rfl hparent,
      foldl_record_visitForms ts _ _ _ (by simp) (Nat.lt_succ_self made.length), flatForm]
    -- the record that was just opened is the last one, and adopts the children
    show List.modify _ made.length _ ++ _ = _
    rw [modify_append_singleton hopened, List.append_assoc]
    rfl

theorem foldl_record_visitForms : ∀ (ts : List Tree) (n : Nat) (parent : Parent)
    (made : List FlatNode), made.length = n → parent.number < n →
      (visitForms n (some parent) ts).foldl record made =
        made.modify parent.number (.extend (numbersFrom n ts)) ++ flatForms n ts
  | [], n, parent, made, hlength, hparent => by
    rw [visitForms, numbersFrom, flatForms, extend_nil, List.modify_id, List.append_nil]
    rfl
  | t :: ts, n, parent, made, hlength, hparent => by
    have hnext : (made.modify parent.number (.extend [n]) ++ flatForm n t).length = n + t.size := by
      rw [List.length_append, List.length_modify, hlength, length_flatForm]
    rw [visitForms, List.foldl_append, foldl_record_visitForm t n parent made hlength hparent,
      foldl_record_visitForms ts _ parent _ hnext (Nat.lt_add_right _ hparent),
      modify_append_of_lt (by rwa [List.length_modify, hlength]), List.modify_modify_eq,
      extend_comp, List.append_assoc]
    rfl
end

/-- A walk leaves the records that recursion gives. -/
theorem foldl_record_walk (t : Tree) : t.walk.foldl record [] = flatForm 0 t := by
  cases t with
  | node s b ts =>
    rw [walk_eq_visitForm, visitForm, List.foldl_cons,
      foldl_record_visitForms ts 1 ⟨0, s⟩ _ rfl Nat.zero_lt_one, flatForm]
    rfl

/-! ## Records of what was visited -/

theorem childrenOf_append (id : Nat) (vs vs' : List Visit) :
    childrenOf id (vs ++ vs') = childrenOf id vs ++ childrenOf id vs' := by
  simp [childrenOf]

/-- The flat form of some visits. -/
def recordsOf (visits : List Visit) : List FlatNode :=
  visits.map fun v => ⟨v.number, v.node.symbol, v.node.isTerminal, childrenOf v.number visits⟩

theorem childrenOf_eq_nil {vs : List Visit} {id : Nat}
    (h : ∀ v ∈ vs, ∀ p ∈ v.parent, p.number ≠ id) : childrenOf id vs = [] := by
  rw [childrenOf, List.map_eq_nil_iff, List.filter_eq_nil_iff]
  intro v hv hid
  obtain ⟨p, hp, heq⟩ := Option.map_eq_some_iff.1 (beq_iff_eq.1 hid)
  exact h v hv p hp heq

theorem childrenOf_singleton {v : Visit} {p : Parent} (hp : v.parent = some p) (id : Nat) :
    childrenOf id [v] = if p.number = id then [v.number] else [] := by
  by_cases hid : p.number = id <;> simp [childrenOf, hp, hid]

/-- Visits that are numbered from 0 on, each after its parent. -/
structure InTurn (visits : List Visit) : Prop where
  number_eq : ∀ (j : Nat) (v : Visit), visits[j]? = some v → v.number = j
  parent_lt : ∀ v ∈ visits, ∀ p ∈ v.parent, p.number < v.number

theorem InTurn.init {vs : List Visit} {v : Visit} (h : InTurn (vs ++ [v])) : InTurn vs where
  number_eq j u hj := h.number_eq j u
    (by rwa [List.getElem?_append_left (List.getElem?_eq_some_iff.1 hj).1])
  parent_lt u hu := h.parent_lt u (List.mem_append_left _ hu)

theorem InTurn.parent_ne {vs : List Visit} (h : InTurn vs) :
    ∀ v ∈ vs, ∀ p ∈ v.parent, p.number + 1 ≠ vs.length := by
  intro v hv p hp heq
  obtain ⟨j, hj⟩ := List.mem_iff_getElem?.1 hv
  have hjlt := (List.getElem?_eq_some_iff.1 hj).1
  have hlt := h.parent_lt v hv p hp
  rw [h.number_eq j v hj] at hlt
  omega

theorem inTurn_walk (t : Tree) : InTurn t.walk :=
  ⟨fun _ _ => number_of_getElem?_walk, fun _ => parent_lt_of_mem_walk⟩

theorem recordsOf_append {vs : List Visit} {v : Visit} (h : InTurn (vs ++ [v])) :
    recordsOf (vs ++ [v]) = record (recordsOf vs) v := by
  have hlength : (recordsOf vs).length = vs.length := List.length_map ..
  have hv : v.number = vs.length := h.number_eq _ _ List.getElem?_concat_length
  have hlast : ∀ u ∈ vs ++ [v], ∀ p ∈ u.parent, p.number ≠ v.number := by
    intro u hu p hp heq
    exact h.parent_ne u hu p hp (by rw [heq, hv, List.length_append, List.length_singleton])
  have hsplit : recordsOf (vs ++ [v]) =
      (vs.map fun u => ⟨u.number, u.node.symbol, u.node.isTerminal,
        childrenOf u.number vs ++ childrenOf u.number [v]⟩) ++ [.opened vs.length v.node] := by
    rw [recordsOf, List.map_append, List.map_singleton, childrenOf_eq_nil hlast, hv]
    simp only [childrenOf_append, FlatNode.opened]
  cases hparent : v.parent with
  | none =>
    have hnone : ∀ id, childrenOf id [v] = [] := fun id =>
      childrenOf_eq_nil fun u hu p hp => by
        rw [List.mem_singleton.1 hu, hparent] at hp
        cases hp
    rw [hsplit, record_root hparent, hlength]
    simp only [hnone, List.append_nil]
    rfl
  | some p =>
    have hp : p.number < vs.length := by
      rw [← hv]
      exact h.parent_lt v (List.mem_append_right _ (List.mem_singleton.2 rfl)) p hparent
    rw [hsplit, record_child hparent (hlength ▸ hp), hlength]
    -- of the records before only that of the parent changes, the one at its number
    refine congrArg (· ++ _) (List.ext_getElem? fun j => ?_)
    rw [List.getElem?_modify, recordsOf, List.getElem?_map, List.getElem?_map]
    cases hj : vs[j]? with
    | none => simp
    | some u =>
      have hu : u.number = j := h.init.number_eq j u hj
      by_cases hpj : p.number = j
      · simp [childrenOf_singleton hparent, FlatNode.extend, hu, hpj, hv]
      · simp [childrenOf_singleton hparent, hu, hpj]

/-- At any time the records are the flat form of what was visited. -/
theorem foldl_record {vs : List Visit} (h : InTurn vs) : vs.foldl record [] = recordsOf vs := by
  induction vs using List.reverseRecOn with
  | nil => rfl
  | append_singleton vs v ih =>
    rw [List.foldl_append, ih h.init, recordsOf_append h]
    rfl

/-! ## The flat form of a tree -/

theorem foldl_record_eq_flat (t : Tree) : t.walk.foldl record [] = t.flat :=
  foldl_record (inTurn_walk t)

theorem flat_eq_flatForm (t : Tree) : t.flat = flatForm 0 t :=
  (foldl_record_eq_flat t).symm.trans (foldl_record_walk t)

theorem symbol_flat (t : Tree) : t.flat.map FlatNode.symbol = t.preorder.map symbol := by
  rw [← walk_eq_preorder, flat, List.map_map, List.map_map]
  rfl

mutual
theorem symbol_leaves_flatForm : ∀ (t : Tree) (n : Nat),
    ((flatForm n t).filter (·.children.isEmpty)).map FlatNode.symbol =
      (t.preorder.filter (·.children.isEmpty)).map symbol
  | .node s b [], n => by
    rw [flatForm, preorder_eq, numbersFrom, flatForms]
    rfl
  | .node s b (t :: ts), n => by
    have hbelow := symbol_leaves_flatForms (t :: ts) (n + 1)
    rw [flatForm, preorder_eq, numbersFrom]
    exact hbelow

theorem symbol_leaves_flatForms : ∀ (ts : List Tree) (n : Nat),
    ((flatForms n ts).filter (·.children.isEmpty)).map FlatNode.symbol =
      ((preorderAll ts).filter (·.children.isEmpty)).map symbol
  | [], n => by
    rw [flatForms, preorderAll]
    rfl
  | t :: ts, n => by
    rw [flatForms, preorderAll, List.filter_append, List.map_append, symbol_leaves_flatForm t,
      symbol_leaves_flatForms ts, List.filter_append, List.map_append]
end

theorem symbol_leaves_flat (t : Tree) :
    (t.flat.filter (·.children.isEmpty)).map FlatNode.symbol = t.leaves.map symbol := by
  rw [flat_eq_flatForm, symbol_leaves_flatForm, leaves, walk_eq_preorder]

end Tree

end Predictive
