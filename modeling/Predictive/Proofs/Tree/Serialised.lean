import Predictive.Proofs.Machine.Store
import Predictive.Proofs.Tree.Flat

/-!
# Reading serialised trees

A tree is serialised in two forms by one walk: as a list of flat nodes,
which name their children by numbers, and as nested records, where the
record of a node holds those of its children by reference. The second
form is a store (`nested`) whose root is its first place. What the walk
writes to the one it writes to the other (`enter_map_node`), so the store
is the list without the numbers (`nested_eq_map_node`).

The records of a subtree stand next to each other, and the numbers in
them are those of its own nodes. Whatever stands before and behind,
therefore, the subtree can be read at the number of its root
(`standsAt_flatForm`), and following the numbers of the list reads the
same tree (`ofFlat?_of_standsAt`).
-/

namespace Predictive

/-! ## The nested form -/

/-- A record without its number. -/
def FlatNode.node (r : FlatNode) : Node := ⟨r.symbol, r.isTerminal, r.children⟩

namespace Node

def opened (t : Tree) : Node := ⟨t.symbol, t.isTerminal, []⟩

def extend (places : List Nat) (n : Node) : Node := n.adopt (n.children ++ places)

end Node

/-- The records after a visit: a new one, which the record of the parent
refers to. -/
def Store.enter (made : Store) (v : Tree.Visit) : Store :=
  let opened := made ++ [.opened v.node]
  match v.parent with
  | none => opened
  | some parent => opened.modify parent.number (.extend [made.length])

namespace Tree

/-- The nested form of a tree: its record is the first. -/
def nested (t : Tree) : Store := t.walk.foldl Store.enter []

theorem map_modify {α β : Type} {f : α → β} {g : β → β} {h : α → α}
    (hgh : ∀ a, g (f a) = f (h a)) (l : List α) (i : Nat) :
    (l.map f).modify i g = (l.modify i h).map f := by
  induction l generalizing i with
  | nil => rw [List.modify_nil, List.map_nil, List.modify_nil]
  | cons a l ih =>
    cases i with
    | zero => simp [hgh]
    | succ i => simpa using ih i

theorem enter_map_node (made : List FlatNode) (v : Visit) :
    Store.enter (made.map FlatNode.node) v = (record made v).map FlatNode.node := by
  have hopened : made.map FlatNode.node ++ [Node.opened v.node] =
      (made ++ [FlatNode.opened made.length v.node]).map FlatNode.node := by
    rw [List.map_append]
    rfl
  cases hparent : v.parent with
  | none =>
    rw [record_root hparent, Store.enter, hparent]
    exact hopened
  | some p =>
    have hextend : ∀ r : FlatNode,
        Node.extend [made.length] r.node = (r.extend [made.length]).node := fun _ => rfl
    rw [record, Store.enter, hparent, List.length_map]
    exact (congrArg (List.modify · _ _) hopened).trans (map_modify hextend _ _)

theorem nested_eq_map_node (t : Tree) : t.nested = t.flat.map FlatNode.node := by
  rw [← foldl_record_eq_flat, nested]
  have hhom : ∀ made, t.walk.foldl Store.enter (made.map FlatNode.node) =
      (t.walk.foldl record made).map FlatNode.node := fun made =>
    List.foldl_hom (List.map FlatNode.node) enter_map_node
  exact hhom []

/-! ## Reading the nested form -/

mutual
/-- A tree stands at the number of its root, whatever records there are
before and behind its own. -/
theorem standsAt_flatForm : ∀ (t : Tree) (before behind : Store),
    t.StandsAt (before ++ (flatForm before.length t).map FlatNode.node ++ behind) before.length
  | .node s b ts, before, behind => by
    have hbelow := standAt_flatForms ts
      (before ++ [⟨s, b, numbersFrom (before.length + 1) ts⟩]) behind
    rw [List.length_append, List.length_singleton] at hbelow
    rw [standsAt_node, flatForm, List.map_cons]
    refine ⟨numbersFrom (before.length + 1) ts, ?_, ?_⟩
    · rw [List.append_assoc, List.getElem?_append_right (Nat.le_refl _), Nat.sub_self]
      rfl
    · rwa [List.append_assoc before, List.singleton_append] at hbelow

theorem standAt_flatForms : ∀ (ts : List Tree) (before behind : Store),
    StandAt (before ++ (flatForms before.length ts).map FlatNode.node ++ behind) ts
      (numbersFrom before.length ts)
  | [], before, behind => by
    rw [numbersFrom]
    exact standAt_nil
  | t :: ts, before, behind => by
    have hfirst := standsAt_flatForm t before
      ((flatForms (before.length + t.size) ts).map FlatNode.node ++ behind)
    have hrest := standAt_flatForms ts
      (before ++ (flatForm before.length t).map FlatNode.node) behind
    rw [List.length_append, List.length_map, length_flatForm] at hrest
    rw [flatForms, numbersFrom, standAt_cons, List.map_append]
    constructor
    · rwa [← List.append_assoc, List.append_assoc before] at hfirst
    · rwa [List.append_assoc before] at hrest
end

theorem standsAt_nested (t : Tree) : t.StandsAt t.nested 0 := by
  have h := standsAt_flatForm t [] []
  rwa [List.nil_append, List.append_nil, List.length_nil, ← flat_eq_flatForm,
    ← nested_eq_map_node] at h

/-! ## Reading the flat form -/

theorem map_id_flat (t : Tree) : t.flat.map FlatNode.id = List.range t.size := by
  rw [flat_eq_flatForm, map_id_flatForm, List.range_eq_range']

/-- Where records are numbered by their places, a number finds its own. -/
theorem find?_id_eq {nodes : List FlatNode} {i : Nat} {r : FlatNode}
    (hids : nodes.map FlatNode.id = List.range nodes.length) (hr : nodes[i]? = some r) :
    nodes.find? (·.id == i) = some r := by
  have hid : ∀ j (hj : j < nodes.length), nodes[j].id = j := by
    intro j hj
    have h := congrArg (·[j]?) hids
    simp only [List.getElem?_map, List.getElem?_range hj, List.getElem?_eq_getElem hj] at h
    exact Option.some.inj h
  obtain ⟨hi, hget⟩ := List.getElem?_eq_some_iff.1 hr
  refine List.find?_eq_some_iff_getElem.2 ⟨?_, i, hi, hget, fun j hj => ?_⟩
  · rw [← hget, hid, beq_self_eq_true]
  · rw [hid]
    simpa using Nat.ne_of_lt hj

mutual
/-- Following the numbers finds the tree that stands there. -/
theorem ofFlat?_of_standsAt {nodes : List FlatNode}
    (hids : nodes.map FlatNode.id = List.range nodes.length) : ∀ (t : Tree) (i depth : Nat),
      t.StandsAt (nodes.map FlatNode.node) i → t.size ≤ depth → ofFlat? nodes depth i = some t
  | .node s b ts, i, 0, h, hdepth => by
    rw [size] at hdepth
    omega
  | .node s b ts, i, depth + 1, h, hdepth => by
    obtain ⟨ks, hi, hts⟩ := standsAt_node.1 h
    rw [List.getElem?_map] at hi
    obtain ⟨r, hr, heq⟩ := Option.map_eq_some_iff.1 hi
    obtain ⟨rfl, rfl, rfl⟩ := Node.mk.inj heq
    rw [size] at hdepth
    have hbelow := mapM_ofFlat?_of_standAt hids ts r.children depth hts (by omega)
    rw [ofFlat?, find?_id_eq hids hr]
    simp [hbelow]

theorem mapM_ofFlat?_of_standAt {nodes : List FlatNode}
    (hids : nodes.map FlatNode.id = List.range nodes.length) :
    ∀ (ts : List Tree) (ks : List Nat) (depth : Nat),
      StandAt (nodes.map FlatNode.node) ts ks → sizeAll ts ≤ depth →
        ks.mapM (ofFlat? nodes depth) = some ts
  | [], ks, depth, h, hdepth => by
    obtain rfl := List.length_eq_zero_iff.1 h.length_eq.symm
    rfl
  | t :: ts, [], depth, h, hdepth => nomatch h.length_eq
  | t :: ts, k :: ks, depth, h, hdepth => by
    obtain ⟨ht, hts⟩ := standAt_cons.1 h
    rw [sizeAll] at hdepth
    have hfirst := ofFlat?_of_standsAt hids t k depth ht (by omega)
    have hrest := mapM_ofFlat?_of_standAt hids ts ks depth hts (by omega)
    simp [hfirst, hrest]
end

theorem ofFlat?_flat (t : Tree) {depth : Nat} (hdepth : t.size ≤ depth) :
    ofFlat? t.flat depth 0 = some t := by
  have hids : t.flat.map FlatNode.id = List.range t.flat.length := by
    rw [map_id_flat, flat, List.length_map, length_walk]
  refine ofFlat?_of_standsAt hids t 0 depth ?_ hdepth
  rw [← nested_eq_map_node]
  exact standsAt_nested t

/-! ## What the numbers say -/

/-- Records are the flat form of a tree: they stand for its nodes in
preorder, and each has the number of its place. -/
structure IsFlatOf (records : List FlatNode) (t : Tree) : Prop where
  ids : records.map FlatNode.id = List.range t.size
  looks : records.map (fun r => (r.symbol, r.isTerminal)) =
    t.preorder.map fun u => (u.symbol, u.isTerminal)
  /-- The numbers in a record are those of the children, in their order. -/
  children : ∀ r ∈ records, ∃ u, t.preorder[r.id]? = some u ∧
    r.children.map (t.preorder[·]?) = u.children.map some
  increasing : ∀ r ∈ records, r.children.Pairwise (· < ·) ∧ ∀ k ∈ r.children, r.id < k
  /-- A number is in the record of the parent and in no other. -/
  parents : ∀ v ∈ t.walk, ∀ r ∈ records,
    v.number ∈ r.children ↔ v.parent.map Parent.number = some r.id
  /-- All numbers but that of the root are in the records, each once. -/
  once : (records.flatMap FlatNode.children).Perm (List.range' 1 (t.size - 1))

theorem InTurn.mem_childrenOf {vs : List Visit} (h : InTurn vs) {v : Visit} (hv : v ∈ vs)
    (id : Nat) : v.number ∈ childrenOf id vs ↔ v.parent.map Parent.number = some id := by
  rw [childrenOf, List.mem_map]
  constructor
  · rintro ⟨u, hu, hnumber⟩
    obtain ⟨hmem, hid⟩ := List.mem_filter.1 hu
    obtain ⟨i, hi⟩ := List.mem_iff_getElem?.1 hmem
    obtain ⟨j, hj⟩ := List.mem_iff_getElem?.1 hv
    -- their numbers are their places, so they are one visit
    rw [h.number_eq i u hi, h.number_eq j v hj] at hnumber
    rw [hnumber, hj] at hi
    rw [Option.some.inj hi]
    exact beq_iff_eq.1 hid
  · exact fun hid => ⟨v, List.mem_filter.2 ⟨hv, beq_iff_eq.2 hid⟩, rfl⟩

theorem le_of_mem_numbersFrom {k : Nat} : ∀ {ts : List Tree} {n : Nat},
    k ∈ numbersFrom n ts → n ≤ k
  | t :: ts, n, h => by
    rw [numbersFrom] at h
    rcases List.mem_cons.1 h with rfl | h
    · exact Nat.le_refl _
    · exact Nat.le_of_add_right_le (le_of_mem_numbersFrom h)
  | [], n, h => by
    rw [numbersFrom] at h
    cases h

theorem pairwise_numbersFrom (ts : List Tree) (n : Nat) :
    (numbersFrom n ts).Pairwise (· < ·) := by
  induction ts generalizing n with
  | nil =>
    rw [numbersFrom]
    exact .nil
  | cons t ts ih =>
    rw [numbersFrom]
    refine List.Pairwise.cons (fun k hk => ?_) (ih (n + t.size))
    have hle := le_of_mem_numbersFrom hk
    rw [size_eq] at hle
    omega

/-- Siblings stand at their numbers in any list that has their nodes from
the first number on. -/
theorem map_getElem?_numbersFrom : ∀ (ts : List Tree) (before behind : List Tree),
    (numbersFrom before.length ts).map ((before ++ preorderAll ts ++ behind)[·]?) = ts.map some
  | [], before, behind => by
    rw [numbersFrom]
    rfl
  | t :: ts, before, behind => by
    have hrest := map_getElem?_numbersFrom ts (before ++ t.preorder) behind
    rw [List.length_append, length_preorder] at hrest
    rw [numbersFrom, List.map_cons, List.map_cons, preorderAll, ← List.append_assoc before, hrest]
    rw [preorder_eq]
    simp

mutual
theorem exists_of_mem_flatForm {r : FlatNode} : ∀ (t : Tree) (before behind : List Tree),
    r ∈ flatForm before.length t →
      ∃ u, (before ++ t.preorder ++ behind)[r.id]? = some u ∧
        r.children = numbersFrom (r.id + 1) u.children ∧
        r.children.map ((before ++ t.preorder ++ behind)[·]?) = u.children.map some
  | .node s b ts, before, behind, h => by
    rw [flatForm] at h
    rw [preorder, ← List.singleton_append, ← List.append_assoc before]
    rcases List.mem_cons.1 h with rfl | h
    · have hchildren := map_getElem?_numbersFrom ts (before ++ [.node s b ts]) behind
      rw [List.length_append, List.length_singleton] at hchildren
      exact ⟨.node s b ts, by simp, rfl, hchildren⟩
    · refine exists_of_mem_flatForms ts (before ++ [.node s b ts]) behind ?_
      rwa [List.length_append, List.length_singleton]

theorem exists_of_mem_flatForms {r : FlatNode} : ∀ (ts : List Tree) (before behind : List Tree),
    r ∈ flatForms before.length ts →
      ∃ u, (before ++ preorderAll ts ++ behind)[r.id]? = some u ∧
        r.children = numbersFrom (r.id + 1) u.children ∧
        r.children.map ((before ++ preorderAll ts ++ behind)[·]?) = u.children.map some
  | [], before, behind, h => by
    rw [flatForms] at h
    cases h
  | t :: ts, before, behind, h => by
    rw [flatForms] at h
    rw [preorderAll]
    rcases List.mem_append.1 h with h | h
    · have hu := exists_of_mem_flatForm t before (preorderAll ts ++ behind) h
      rwa [← List.append_assoc, List.append_assoc before] at hu
    · have hu := exists_of_mem_flatForms ts (before ++ t.preorder) behind
        (by rwa [List.length_append, length_preorder])
      rwa [List.append_assoc before] at hu
end

mutual
theorem children_flatForm_perm : ∀ (t : Tree) (n : Nat),
    ((flatForm n t).flatMap FlatNode.children).Perm (List.range' (n + 1) (t.size - 1))
  | .node s b ts, n => by
    rw [flatForm, List.flatMap_cons, size, Nat.add_sub_cancel_left]
    exact children_flatForms_perm ts (n + 1)

theorem children_flatForms_perm : ∀ (ts : List Tree) (n : Nat),
    (numbersFrom n ts ++ (flatForms n ts).flatMap FlatNode.children).Perm
      (List.range' n (sizeAll ts))
  | [], n => by
    rw [numbersFrom, flatForms, sizeAll]
    rfl
  | t :: ts, n => by
    have hfirst := children_flatForm_perm t n
    have hrest := children_flatForms_perm ts (n + t.size)
    have hrange : List.range' n (sizeAll (t :: ts)) =
        n :: (List.range' (n + 1) (t.size - 1) ++ List.range' (n + t.size) (sizeAll ts)) := by
      rw [sizeAll, ← List.range'_append_1, size_eq, Nat.add_comm 1, List.range'_succ]
      rfl
    rw [numbersFrom, flatForms, hrange, List.flatMap_append, List.cons_append]
    refine List.Perm.cons n ((List.perm_append_comm_assoc ..).trans (hfirst.append hrest))
end

theorem isFlatOf_flat (t : Tree) : IsFlatOf t.flat t where
  ids := map_id_flat t
  looks := by
    rw [← walk_eq_preorder, flat, List.map_map, List.map_map]
    rfl
  children r hr := by
    rw [flat_eq_flatForm] at hr
    obtain ⟨u, hu, -, hchildren⟩ := exists_of_mem_flatForm t [] [] hr
    rw [List.nil_append, List.append_nil] at hu hchildren
    exact ⟨u, hu, hchildren⟩
  increasing r hr := by
    rw [flat_eq_flatForm] at hr
    obtain ⟨u, -, hnumbers, -⟩ := exists_of_mem_flatForm t [] [] hr
    rw [hnumbers]
    exact ⟨pairwise_numbersFrom _ _, fun k hk => le_of_mem_numbersFrom hk⟩
  parents v hv r hr := by
    obtain ⟨w, -, rfl⟩ := List.mem_map.1 hr
    exact (inTurn_walk t).mem_childrenOf hv w.number
  once := by
    rw [flat_eq_flatForm]
    exact children_flatForm_perm t 0

/-- The serialisations of a tree lose nothing. The flat form, as it is
written while the tree is walked, lists the nodes in preorder with their
numbers, every number but that of the root stands in the record of the
parent and nowhere else, and following the numbers from the root gives
the tree again. It is the only tree that can be read from the root of the
nested form. -/
theorem serialised_law (t : Tree) :
    t.walk.foldl record [] = t.flat ∧ IsFlatOf t.flat t ∧
      (∀ depth, t.size ≤ depth → ofFlat? t.flat depth 0 = some t) ∧
      ∀ u : Tree, u.StandsAt t.nested 0 ↔ u = t :=
  ⟨foldl_record_eq_flat t, isFlatOf_flat t, fun _ => ofFlat?_flat t, fun _ =>
    ⟨fun hu => hu.unique (standsAt_nested t), fun hu => hu ▸ standsAt_nested t⟩⟩

end Tree

end Predictive
