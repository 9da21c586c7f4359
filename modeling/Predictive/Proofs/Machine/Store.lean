import Predictive.Machine.Basic

/-!
# Trees in a store of nodes

A tree can be built from its root down: a node is made without children
and gets them later, when others refer to it already. Nodes then stand in
a store and are known by their places (`Node`, `Store`), and a tree is
what can be read from a place (`Tree.StandsAt`); there is at most one.

A machine that builds its tree so writes to one node at a time, and
keeps the places of those it did not use yet. They are all different
(`Grows`), so writing to one leaves the others as they are. The tree that
is regrown from the moves of the machine is then the one in its store. The
invariant of that is about every later store: whatever trees the open
nodes become while the others stay, the tree regrown from these stands
at the root (`Grows.grown`).
-/

namespace Predictive

/-! ## Nodes -/

/-- A node of a tree that is being built. Its children are places. -/
structure Node where
  symbol : Symbol
  isTerminal : Bool
  children : List Nat
deriving DecidableEq

namespace Node

/-- A node that was not used yet. -/
def bare (s : Symbol) : Node := ⟨s, false, []⟩

def matched (s : Symbol) : Node := ⟨s, true, []⟩

def mark (n : Node) : Node := { n with isTerminal := true }

def adopt (children : List Nat) (n : Node) : Node := { n with children := children }

end Node

/-- The nodes that become the children of an expanded node: an ε leaf,
or one for each symbol of the right-hand side. -/
def Production.offspring (p : Production) : List Node :=
  if p.isEpsilon then [.matched .epsilon] else p.rhs.map .bare

/-- Nodes by their places. -/
abbrev Store := List Node

namespace Store

def fresh (made : Store) (p : Production) : List Nat :=
  List.range' made.length p.offspring.length

/-- The store after the node at `i` was expanded. -/
def expandAt (made : Store) (i : Nat) (p : Production) : Store :=
  made.modify i (.adopt (made.fresh p)) ++ p.offspring

/-- The places of those new nodes that stand for symbols still to be
used: none for the empty word. -/
def opened (made : Store) (p : Production) : List Nat := if p.isEpsilon then [] else made.fresh p

/-- Nodes stand at places, each at its own. -/
def Has (made : Store) (places : List Nat) (nodes : List Node) : Prop :=
  places.map (fun k => made[k]?) = nodes.map some

/-- One store is the other, and perhaps more, but for some places. -/
def AgreeOff (places : List Nat) (made store : Store) : Prop :=
  ∀ j < made.length, j ∉ places → store[j]? = made[j]?

end Store

/-! ## Reading a tree -/

namespace Tree

mutual
/-- A tree stands at a place of a store. -/
def StandsAt (made : Store) : Tree → Nat → Prop
  | .node s b ts, i => ∃ ks, made[i]? = some ⟨s, b, ks⟩ ∧ StandAt made ts ks

/-- Trees stand at places of a store, each at its own. -/
def StandAt (made : Store) : List Tree → List Nat → Prop
  | [], [] => True
  | t :: ts, k :: ks => t.StandsAt made k ∧ StandAt made ts ks
  | [], _ :: _ => False
  | _ :: _, [] => False
end

variable {made : Store} {s : Symbol} {b : Bool} {i : Nat} {t u : Tree} {ts us : List Tree}
  {ks ls : List Nat}

theorem standsAt_node :
    (Tree.node s b ts).StandsAt made i ↔ ∃ ks, made[i]? = some ⟨s, b, ks⟩ ∧ StandAt made ts ks := by
  rw [StandsAt]

@[simp] theorem standAt_nil : StandAt made [] [] := by rw [StandAt]; trivial

@[simp] theorem standAt_cons :
    StandAt made (t :: ts) (i :: ks) ↔ t.StandsAt made i ∧ StandAt made ts ks := by
  rw [StandAt]

theorem StandAt.length_eq (h : StandAt made ts ks) : ts.length = ks.length := by
  induction ts generalizing ks with
  | nil =>
    cases ks with
    | nil => rfl
    | cons => rw [StandAt] at h; exact h.elim
  | cons t ts ih =>
    cases ks with
    | nil => rw [StandAt] at h; exact h.elim
    | cons k ks => exact congrArg Nat.succ (ih (standAt_cons.1 h).2)

theorem StandAt.split (h : StandAt made ts (ks ++ ls)) :
    ∃ us vs, ts = us ++ vs ∧ StandAt made us ks ∧ StandAt made vs ls := by
  induction ks generalizing ts with
  | nil => exact ⟨[], ts, rfl, standAt_nil, h⟩
  | cons k ks ih =>
    cases ts with
    | nil => cases h.length_eq
    | cons t ts =>
      obtain ⟨ht, hts⟩ := standAt_cons.1 h
      obtain ⟨us, vs, rfl, hus, hvs⟩ := ih hts
      exact ⟨t :: us, vs, rfl, standAt_cons.2 ⟨ht, hus⟩, hvs⟩

theorem standsAt_bare : (Tree.bare s).StandsAt made i ↔ made[i]? = some (.bare s) := by
  rw [Tree.bare, standsAt_node]
  constructor
  · rintro ⟨ks, hi, hks⟩
    obtain rfl := List.length_eq_zero_iff.1 hks.length_eq.symm
    exact hi
  · exact fun hi => ⟨[], hi, standAt_nil⟩

theorem standsAt_matched (h : made[i]? = some (.matched s)) : (Tree.matched s).StandsAt made i :=
  standsAt_node.2 ⟨[], h, standAt_nil⟩

mutual
theorem StandsAt.unique : ∀ {t u : Tree} {i : Nat}, t.StandsAt made i → u.StandsAt made i → t = u
  | .node s b ts, .node s' b' us, i, h, h' => by
    obtain ⟨ks, hi, hts⟩ := standsAt_node.1 h
    obtain ⟨ls, hi', hus⟩ := standsAt_node.1 h'
    obtain ⟨rfl, rfl, rfl⟩ := Node.mk.inj (Option.some.inj (hi.symm.trans hi'))
    rw [StandAt.unique hts hus]

theorem StandAt.unique : ∀ {ts us : List Tree} {ks : List Nat},
    StandAt made ts ks → StandAt made us ks → ts = us
  | [], [], _, _, _ => rfl
  | t :: ts, u :: us, k :: ks, h, h' => by
    obtain ⟨ht, hts⟩ := standAt_cons.1 h
    obtain ⟨hu, hus⟩ := standAt_cons.1 h'
    rw [ht.unique hu, StandAt.unique hts hus]
  | [], u :: us, ks, h, h' => nomatch h.length_eq.trans h'.length_eq.symm
  | t :: ts, [], ks, h, h' => nomatch h.length_eq.trans h'.length_eq.symm
  | t :: ts, u :: us, [], h, h' => nomatch h.length_eq
end

end Tree

/-! ## Writing to a store -/

namespace Store

variable {made store : Store} {places : List Nat} {nodes : List Node} {i k : Nat} {p : Production}

theorem Has.lt_of_mem (h : made.Has places nodes) (hk : k ∈ places) : k < made.length := by
  have hmem : made[k]? ∈ places.map fun k => made[k]? := List.mem_map.2 ⟨k, hk, rfl⟩
  rw [h] at hmem
  obtain ⟨n, -, hn⟩ := List.mem_map.1 hmem
  exact (List.getElem?_eq_some_iff.1 hn.symm).1

theorem Has.length_eq (h : made.Has places nodes) : places.length = nodes.length := by
  simpa using congrArg List.length h

theorem Has.exists_place (h : made.Has places nodes) {j : Nat} {n : Node}
    (hn : nodes[j]? = some n) : ∃ k, places[j]? = some k ∧ made[k]? = some n := by
  have hj : (places.map fun k => made[k]?)[j]? = some (some n) := by
    rw [h, List.getElem?_map, hn]
    rfl
  rw [List.getElem?_map] at hj
  obtain ⟨k, hk, hmade⟩ := Option.map_eq_some_iff.1 hj
  exact ⟨k, hk, hmade⟩

theorem Has.standAt_bare {σ : List Symbol} (h : made.Has places (σ.map .bare)) :
    Tree.StandAt made (σ.map .bare) places := by
  induction σ generalizing places with
  | nil =>
    obtain rfl := List.map_eq_nil_iff.1 h
    exact Tree.standAt_nil
  | cons s σ ih =>
    cases places with
    | nil => cases h
    | cons k places =>
      obtain ⟨hk, hrest⟩ := List.cons.inj h
      exact Tree.standAt_cons.2 ⟨Tree.standsAt_bare.2 hk, ih hrest⟩

theorem has_range' (made : Store) (nodes : List Node) :
    Has (made ++ nodes) (List.range' made.length nodes.length) nodes := by
  induction nodes generalizing made with
  | nil => rfl
  | cons n nodes ih =>
    have hrest := ih (made ++ [n])
    rw [List.length_append, List.append_assoc] at hrest
    rw [Has, List.length_cons, List.range'_succ, List.map_cons, List.map_cons]
    have hhead : (made ++ n :: nodes)[made.length]? = some n := by simp
    rw [hhead]
    exact congrArg (List.cons _) hrest

theorem has_fresh (made : Store) (i : Nat) (p : Production) :
    (made.expandAt i p).Has (made.fresh p) p.offspring := by
  have h := has_range' (made.modify i (.adopt (made.fresh p))) p.offspring
  rwa [List.length_modify] at h

theorem has_opened (made : Store) (i : Nat) (p : Production) :
    (made.expandAt i p).Has (made.opened p) (p.expansion.map .bare) := by
  rw [opened, Production.expansion]
  split
  · rfl
  · next hp =>
    have h := made.has_fresh i p
    rwa [Production.offspring, if_neg hp] at h

theorem le_of_mem_opened (hk : k ∈ made.opened p) : made.length ≤ k := by
  rw [opened] at hk
  split at hk
  · exact absurd hk List.not_mem_nil
  · exact (List.mem_range'_1.1 hk).1

theorem nodup_opened (made : Store) (p : Production) : (made.opened p).Nodup := by
  rw [opened]
  split
  · exact List.nodup_nil
  · exact List.nodup_range'

theorem length_expandAt (made : Store) (i : Nat) (p : Production) :
    (made.expandAt i p).length = made.length + p.offspring.length := by
  rw [expandAt, List.length_append, List.length_modify]

theorem getElem?_expandAt {j : Nat} (hj : j < made.length) :
    (made.expandAt i p)[j]? = (made.modify i (.adopt (made.fresh p)))[j]? := by
  rw [expandAt, List.getElem?_append_left]
  rwa [List.length_modify]

/-- Regrowing an expansion finds the children where they were put. -/
theorem standAt_regrow_expand {top : Symbol} {ts : List Tree}
    (hroot : store[i]? = some ⟨top, false, made.fresh p⟩)
    (hagree : AgreeOff (made.opened p ++ places) (made.expandAt i p) store)
    (hplaces : ∀ k ∈ places, k < made.length)
    (hts : Tree.StandAt store ts (made.opened p ++ places)) :
    Tree.StandAt store (Move.regrow (.expand top p) ts) (i :: places) := by
  rw [Move.regrow]
  by_cases hp : p.isEpsilon
  · have hopened : made.opened p = [] := if_pos hp
    have hoffspring : p.offspring = [.matched .epsilon] := if_pos hp
    have hfresh : made.fresh p = [made.length] := by
      rw [fresh, hoffspring]
      rfl
    -- the ε leaf stands for no symbol, so no later step writes to it
    have hleaf := made.has_fresh i p
    rw [hfresh, hoffspring] at hleaf
    rw [hopened, List.nil_append] at hagree hts
    have hε : store[made.length]? = some (.matched .epsilon) := by
      rw [hagree made.length ?_ fun hk => Nat.lt_irrefl _ (hplaces _ hk)]
      · exact (List.cons.inj hleaf).1
      · rw [length_expandAt, hoffspring]
        exact Nat.lt_succ_self _
    rw [hfresh] at hroot
    have hnode : (Tree.node top false [.matched .epsilon]).StandsAt store i :=
      Tree.standsAt_node.2 ⟨_, hroot,
        Tree.standAt_cons.2 ⟨Tree.standsAt_matched hε, Tree.standAt_nil⟩⟩
    rw [if_pos hp]
    exact Tree.standAt_cons.2 ⟨hnode, hts⟩
  · have hopened : made.opened p = made.fresh p := if_neg hp
    rw [hopened] at hts
    obtain ⟨us, vs, rfl, hus, hvs⟩ := hts.split
    have hlength : us.length = p.rhs.length := by
      rw [hus.length_eq, fresh, List.length_range', Production.offspring, if_neg hp,
        List.length_map]
    rw [if_neg hp, ← hlength, List.take_left, List.drop_left]
    exact Tree.standAt_cons.2 ⟨Tree.standsAt_node.2 ⟨_, hroot, hus⟩, hvs⟩

end Store

/-! ## A tree that grows -/

/-- The nodes at `places` of a store are all different, stand for `σ` and
were not used yet; and whatever trees they become, the tree regrown from
these stands at the root. -/
structure Grows (made : Store) (σ : List Symbol) (places : List Nat) (moves : List Move) :
    Prop where
  nodup : places.Nodup
  unused : made.Has places (σ.map .bare)
  grown : ∀ store ts, Store.AgreeOff places made store → Tree.StandAt store ts places →
    Tree.StandAt store (moves.foldl (fun forest move => move.regrow forest) ts) [0]

namespace Grows

variable {made made' : Store} {σ : List Symbol} {places opened : List Nat} {moves : List Move}
  {top : Symbol} {i : Nat}

theorem initial (start : Symbol) : Grows [.bare start] [start] [0] [] where
  nodup := by simp
  unused := rfl
  grown _ _ _ h := h

/-- The node on top is used: it and new nodes are written, and `opened`
are those of the new nodes that stand for symbols. -/
theorem next (h : Grows made (top :: σ) (i :: places) moves) {body : List Symbol} {move : Move}
    (hlength : made.length ≤ made'.length)
    (hkept : ∀ j < made.length, j ≠ i → made'[j]? = made[j]?)
    (hnew : ∀ k ∈ opened, made.length ≤ k) (hnodup : opened.Nodup)
    (hopened : made'.Has opened (body.map .bare))
    (hregrow : ∀ store ts, store[i]? = made'[i]? →
      Store.AgreeOff (opened ++ places) made' store → Tree.StandAt store ts (opened ++ places) →
        Tree.StandAt store (move.regrow ts) (i :: places)) :
    Grows made' (body ++ σ) (opened ++ places) (move :: moves) := by
  obtain ⟨hi, hplaces⟩ := List.nodup_cons.1 h.nodup
  have hlt : ∀ k ∈ i :: places, k < made.length := fun k hk => h.unused.lt_of_mem hk
  refine ⟨?_, ?_, fun store ts hagree hts => ?_⟩
  · refine List.nodup_append.2 ⟨hnodup, hplaces, fun k hk j hj => ?_⟩
    have hj := hlt j (List.mem_cons_of_mem _ hj)
    have hk := hnew k hk
    omega
  · have hrest : places.map (fun k => made'[k]?) = places.map fun k => made[k]? :=
      List.map_congr_left fun k hk =>
        hkept k (hlt k (List.mem_cons_of_mem _ hk)) fun heq => hi (heq ▸ hk)
    rw [Store.Has, List.map_append, List.map_append, List.map_append, hopened, hrest,
      (List.cons.inj h.unused).2]
  · -- a place of the old store is not that of a new node
    have hold : ∀ j < made.length, j ∉ places → store[j]? = made'[j]? := by
      intro j hj hne
      refine hagree j (Nat.lt_of_lt_of_le hj hlength) fun hmem => ?_
      rcases List.mem_append.1 hmem with hmem | hmem
      · exact absurd (hnew j hmem) (Nat.not_le.2 hj)
      · exact hne hmem
    refine h.grown store _ (fun j hj hne => ?_)
      (hregrow store ts (hold i (hlt i (List.mem_cons_self ..)) hi) hagree hts)
    obtain ⟨hji, hne⟩ := not_or.1 (mt List.mem_cons.2 hne)
    exact (hold j hj hne).trans (hkept j hj hji)

theorem consume (h : Grows made (top :: σ) (i :: places) moves) :
    Grows (made.modify i .mark) σ places (.consume top :: moves) := by
  have htop : made[i]? = some (.bare top) := (List.cons.inj h.unused).1
  show Grows _ ([] ++ σ) ([] ++ places) _
  refine h.next (Nat.le_of_eq ?_) ?_ (fun _ hk => absurd hk List.not_mem_nil) List.nodup_nil
    rfl ?_
  · rw [List.length_modify]
  · intro j _ hji
    exact List.getElem?_modify_ne _ _ (Ne.symm hji)
  · intro store ts hi _ hts
    rw [List.getElem?_modify_eq, htop] at hi
    exact Tree.standAt_cons.2 ⟨Tree.standsAt_matched hi, hts⟩

theorem expand (h : Grows made (top :: σ) (i :: places) moves) (p : Production) :
    Grows (made.expandAt i p) (p.expansion ++ σ) (made.opened p ++ places)
      (.expand top p :: moves) := by
  have htop : made[i]? = some (.bare top) := (List.cons.inj h.unused).1
  have hlt : ∀ k ∈ i :: places, k < made.length := fun k hk => h.unused.lt_of_mem hk
  refine h.next ?_ ?_ (fun _ => Store.le_of_mem_opened) (made.nodup_opened p)
    (made.has_opened i p) ?_
  · rw [Store.length_expandAt]
    exact Nat.le_add_right ..
  · intro j hj hji
    rw [Store.getElem?_expandAt hj]
    exact List.getElem?_modify_ne _ _ (Ne.symm hji)
  · intro store ts hroot hagree hts
    rw [Store.getElem?_expandAt (hlt i (List.mem_cons_self ..)), List.getElem?_modify_eq,
      htop] at hroot
    exact Store.standAt_regrow_expand hroot hagree
      (fun k hk => hlt k (List.mem_cons_of_mem _ hk)) hts

end Grows

end Predictive
