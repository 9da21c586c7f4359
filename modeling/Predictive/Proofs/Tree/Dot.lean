import Predictive.Proofs.Tree.DotTokens
import Predictive.Proofs.Tree.Numbering
import Predictive.Proofs.Tree.Plain

/-!
# Trees as DOT graphs can be read

The statements of a graph are read from the tokens of the lines one visit
after the other (`statements_ofVisits`). So the graph of a tree whose
labels can be read describes it (`Describes`): there is a statement for
each node, in preorder, with its number and its label, and one for each
edge.

A label can be read where it is not a backslash. The first backslash that
is visited spoils the graph: up to there all is read, but its node gets a
label that begins with a double quote, or nothing is read at all
(`exists_of_read_backslash`). The nodes of accepted texts are labelled
with single code points, so this is the only exception (`dot_law`).
-/

namespace Predictive

namespace Dot

variable {t : Text} {ts rest : List Token} {v : Tree.Visit}

/-! ## Reading statements -/

theorem attributes_append {attrs : List (Text × Text)}
    (h : ∀ a ∈ attrs, (Token.bare a.1).id? = some a.1 ∧ (Token.bare a.2).id? = some a.2)
    (id : Text) (before : List (Text × Text)) (rest : List Token) :
    attributes id before (attrs.flatMap (fun a => [.bare a.1, .equals, .bare a.2]) ++ rest) =
      attributes id (attrs.reverse ++ before) rest := by
  induction attrs generalizing before with
  | nil => rfl
  | cons a attrs ih =>
    obtain ⟨⟨hname, hvalue⟩, hattrs⟩ := List.forall_mem_cons.1 h
    rw [List.flatMap_cons, List.append_assoc]
    simp [attributes, hname, hvalue, ih hattrs]

theorem attributes_behindLabel (id : Text) (before : List (Text × Text)) (v : Tree.Visit)
    (rest : List Token) :
    attributes id before (Token.behindLabel v ++ rest) =
      (statements rest).map (.node id (before.reverse ++ look v.node.isTerminal) :: ·) := by
  have hlook : ∀ b, ∀ a ∈ look b,
      (Token.bare a.1).id? = some a.1 ∧ (Token.bare a.2).id? = some a.2 := by decide
  rw [Token.behindLabel, List.append_assoc, attributes_append (hlook _)]
  cases h : statements rest <;> simp [attributes, h]

/-- The label of a node is read as the first of its attributes, whatever
it is. -/
theorem statements_beforeLabel (v : Tree.Visit) (label : Token) {t : Text}
    (h : label.id? = some t) (rest : List Token) :
    statements (Token.beforeLabel v ++ label :: rest) =
      attributes (Text.ofNat v.number) [("label", t)] rest := by
  have hname : (Token.bare "label").id? = some "label" := by decide
  simp [Token.beforeLabel, statements, attributes, id?_ofNat, hname, h]

theorem statements_ofEdge (v : Tree.Visit) (rest : List Token) :
    statements ((v.parent.map (Token.ofEdge v)).toList.flatten ++ rest) =
      (statements rest).map ((v.parent.map (Statement.ofEdge v)).toList ++ ·) := by
  cases v.parent with
  | none => simp
  | some p =>
    cases h : statements rest <;> simp [Token.ofEdge, Statement.ofEdge, statements, id?_ofNat, h]

theorem statements_ofVisit (h : IsReadable v) (rest : List Token) :
    statements (Token.ofVisit v ++ rest) =
      (statements rest).map (Statement.ofVisit v ++ ·) := by
  obtain ⟨c, hsymbol, hc⟩ := h
  have hlabel : (labelToken v.node.symbol.text).id? = some v.node.symbol.text := by
    rw [hsymbol]
    exact id?_labelToken c
  rw [Token.ofVisit, List.append_assoc, List.append_assoc, List.cons_append,
    statements_beforeLabel v _ hlabel, attributes_behindLabel, statements_ofEdge, Option.map_map]
  rfl

theorem statements_ofVisits {visits : List Tree.Visit} (h : ∀ v ∈ visits, IsReadable v)
    (rest : List Token) :
    statements (visits.flatMap Token.ofVisit ++ rest) =
      (statements rest).map (visits.flatMap Statement.ofVisit ++ ·) := by
  induction visits with
  | nil => simp
  | cons v visits ih =>
    obtain ⟨hv, hvisits⟩ := List.forall_mem_cons.1 h
    rw [List.flatMap_cons, List.append_assoc, statements_ofVisit hv, ih hvisits, Option.map_map]
    simp [Function.comp_def]

/-- The attributes that were read come first. -/
theorem exists_of_attributes {id : Text} {before : List (Text × Text)} {S : List Statement}
    (h : attributes id before ts = some S) :
    ∃ attrs more, S = .node id (before.reverse ++ attrs) :: more := by
  induction hlength : ts.length using Nat.strong_induction_on generalizing ts before with
  | _ n ih =>
    unfold attributes at h
    split at h
    · obtain ⟨more, -, heq⟩ := Option.bind_eq_some_iff.1 h
      exact ⟨[], more, by rw [← Option.some.inj heq, List.append_nil]⟩
    · next name value rest hne =>
      obtain ⟨k, -, h⟩ := Option.bind_eq_some_iff.1 h
      obtain ⟨x, -, h⟩ := Option.bind_eq_some_iff.1 h
      obtain ⟨attrs, more, hS⟩ := ih _ (by rw [← hlength, List.length_cons]; simp; omega) h rfl
      exact ⟨(k, x) :: attrs, more, by simpa using hS⟩
    · cases h

/-! ## Reading a graph -/

theorem gives_of_tokens? (h : tokens? t = some ts) : Gives t ts := by
  rw [tokens?] at h
  split at h
  · next hfeed =>
    obtain rfl := Option.some.inj h
    exact hfeed
  · cases h

theorem read_eq (h : Gives t (.bare "digraph" :: .openBrace :: rest)) :
    read t = statements rest := by
  have htokens : tokens? t = some (.bare "digraph" :: .openBrace :: rest) := by
    rw [tokens?, h]
  rw [read, htokens]
  exact if_pos (by decide)

theorem exists_gives_of_read {S : List Statement} (h : read t = some S) : ∃ ts, Gives t ts := by
  rw [read] at h
  split at h
  · next htokens => exact ⟨_, gives_of_tokens? htokens⟩
  · cases h

def header : Text := "// LL1_parse_tree\ndigraph \x7b\n"

theorem gives_header : Gives header [.bare "digraph", .openBrace] := by decide +kernel

theorem dot_eq (t : Tree) : t.dot = header ++ (visitLines t.walk ++ "\x7d\n") := by
  simp only [Tree.dot, lines, visitLines, Text.unlines, List.flatMap_append, List.flatMap_cons,
    List.cons_append, List.flatMap_nil, List.append_nil]
  rfl

theorem read_dot {t : Tree} (h : ∀ v ∈ t.walk, IsReadable v) :
    read t.dot = some (t.walk.flatMap Statement.ofVisit) := by
  have hclose : Gives "\x7d\n" [.closeBrace] := by decide
  have hgives := gives_header.append ((gives_visitLines h).append hclose)
  rw [← dot_eq] at hgives
  have hread : read t.dot = statements (t.walk.flatMap Token.ofVisit ++ [.closeBrace]) :=
    read_eq hgives
  rw [hread, statements_ofVisits h]
  simp [statements]

/-! ## A backslash -/

/-- The label of a backslash is not ended where it should be. What is read
of a text in which it stands is none of the statements behind, and a
longer label. -/
theorem exists_of_read_backslash {before after : List Tree.Visit}
    (hreadable : ∀ u ∈ before, IsReadable u) (hv : v.node.symbol = .single (.char '\\'))
    {S : List Statement} {closing : Text}
    (h : read (header ++ (visitLines (before ++ v :: after) ++ closing)) = some S) :
    ∃ w attrs more, S = before.flatMap Statement.ofVisit ++
      .node (Text.ofNat v.number) (("label", .char '"' :: w) :: attrs) :: more := by
  have hlabel : label v.node.symbol.text = "\"\\\"" := by
    rw [hv]
    decide
  have hopen : feed .between "\"\\\"" = some ([], .quoted ([] ++ [.char '"'])) := by decide
  have hbefore : Gives (header ++ (visitLines before ++ lineStart v))
      ([.bare "digraph", .openBrace] ++
        (before.flatMap Token.ofVisit ++ Token.beforeLabel v)) :=
    gives_header.append ((gives_visitLines hreadable).append (gives_lineStart v))
  obtain ⟨behindLabel, htext⟩ : ∃ behindLabel,
      header ++ (visitLines (before ++ v :: after) ++ closing) =
        header ++ (visitLines before ++ lineStart v) ++ ("\"\\\"" ++ behindLabel) := by
    refine ⟨" " ++ (lineEnd v ++ (Text.unlines (edgeLine v) ++ (visitLines after ++ closing))), ?_⟩
    rw [visitLines_append, visitLines_cons, nodeLine_eq, hlabel]
    simp only [List.append_assoc]
  rw [htext] at h
  obtain ⟨ts, hts⟩ := exists_gives_of_read h
  have hfeed := hts
  rw [Gives, hbefore.feed_append, Dot.feed_append, hopen, Option.bind_some, behind_nil,
    Option.map_id] at hfeed
  obtain ⟨⟨more, m⟩, hmore, heq⟩ := Option.map_eq_some_iff.1 hfeed
  obtain ⟨rfl, rfl⟩ := Prod.mk.inj heq
  obtain ⟨w, more, rfl⟩ := exists_of_feed_quoted [] hmore
  have hread : some S = statements (before.flatMap Token.ofVisit ++ Token.beforeLabel v ++
      .quoted (.char '"' :: w) :: more) := h.symm.trans (read_eq hts)
  rw [List.append_assoc, statements_ofVisits hreadable, statements_beforeLabel v _ rfl] at hread
  obtain ⟨S', hS', rfl⟩ := Option.map_eq_some_iff.1 hread.symm
  obtain ⟨attrs, rest, rfl⟩ := exists_of_attributes hS'
  exact ⟨w, attrs, rest, rfl⟩

/-! ## The graph of a tree -/

/-- Statements describe a tree: there is one for each node, in preorder,
with its number there and its symbol as its only label, and one for each
edge. -/
structure Describes (S : List Statement) (t : Tree) : Prop where
  nodes : S.filterMap Statement.node? =
    t.preorder.mapIdx fun i u => (Text.ofNat i, [u.symbol.text])
  edges : S.filterMap Statement.edge? =
    (t.edgesFrom 0).map fun e => (Text.ofNat e.1, Text.ofNat e.2)

theorem node?_ofNode (v : Tree.Visit) :
    (Statement.ofNode v).node? = some (Text.ofNat v.number, [v.node.symbol.text]) := by
  have hlook : ∀ b, (look b).filter (·.1 = ("label" : Text)) = [] := by decide
  rw [Statement.ofNode, Statement.node?, List.filter_cons_of_pos (by simp), hlook]
  rfl

theorem node?_ofVisits (visits : List Tree.Visit) :
    (visits.flatMap Statement.ofVisit).filterMap Statement.node? =
      visits.map fun v => (Text.ofNat v.number, [v.node.symbol.text]) := by
  induction visits with
  | nil => rfl
  | cons v visits ih =>
    have hedge : (v.parent.map (Statement.ofEdge v)).toList.filterMap Statement.node? = [] := by
      cases v.parent <;> rfl
    rw [List.flatMap_cons, List.filterMap_append, ih, Statement.ofVisit, List.filterMap_cons,
      node?_ofNode, hedge]
    rfl

theorem edge?_ofVisits (visits : List Tree.Visit) :
    (visits.flatMap Statement.ofVisit).filterMap Statement.edge? =
      (visits.filterMap Tree.Visit.edge?).map fun e => (Text.ofNat e.1, Text.ofNat e.2) := by
  induction visits with
  | nil => rfl
  | cons v visits ih =>
    rw [List.flatMap_cons, List.filterMap_append, ih, List.filterMap_cons, Statement.ofVisit,
      Tree.Visit.edge?]
    cases v.parent <;> rfl

theorem describes_ofVisits (t : Tree) : Describes (t.walk.flatMap Statement.ofVisit) t where
  nodes := by
    rw [node?_ofVisits, ← t.map_walk_eq_mapIdx fun i u => (Text.ofNat i, [u.symbol.text])]
  edges := by rw [edge?_ofVisits, t.edge?_walk]

/-- What is read of a graph in which a backslash is visited does not
describe the tree. -/
theorem not_describes_of_backslash {t : Tree} {before after : List Tree.Visit}
    (hwalk : t.walk = before ++ v :: after) (hreadable : ∀ u ∈ before, IsReadable u)
    (hv : v.node.symbol = .single (.char '\\')) {S : List Statement} (hS : read t.dot = some S) :
    ¬ Describes S t := by
  intro hdescribes
  rw [dot_eq, hwalk] at hS
  obtain ⟨w, attrs, more, rfl⟩ := exists_of_read_backslash hreadable hv hS
  have hnodes := hdescribes.nodes
  rw [← t.map_walk_eq_mapIdx fun i u => (Text.ofNat i, [u.symbol.text]), hwalk,
    List.filterMap_append, node?_ofVisits, List.map_append] at hnodes
  -- behind the nodes before it, the first label of this one is to be a backslash
  have hlabels : (((("label" : Text), .char '"' :: w) :: attrs).filter
      (·.1 = ("label" : Text))).map Prod.snd = [v.node.symbol.text] :=
    (Prod.mk.inj (List.cons.inj (List.append_cancel_left hnodes)).1).2
  rw [List.filter_cons_of_pos (by simp), List.map_cons, hv] at hlabels
  exact absurd (List.cons.inj (List.cons.inj hlabels).1).1 (by decide)

/-- A tree of single code points can be read from its graph exactly when
none of them is a backslash. -/
theorem exists_describes_iff {t : Tree} (hsingle : ∀ u ∈ t.preorder, ∃ c, u.symbol = .single c) :
    (∃ S, read t.dot = some S ∧ Describes S t) ↔
      ∀ u ∈ t.preorder, u.symbol ≠ .single (.char '\\') := by
  rw [← t.walk_eq_preorder, List.forall_mem_map] at hsingle ⊢
  have hreadable : ∀ v ∈ t.walk, v.node.symbol ≠ .single (.char '\\') → IsReadable v := by
    intro v hv hne
    obtain ⟨c, hc⟩ := hsingle v hv
    exact ⟨c, hc, fun hbackslash => hne (hbackslash ▸ hc)⟩
  constructor
  · rintro ⟨S, hS, hdescribes⟩ u hu hbackslash
    have hsome : (t.walk.find? (·.node.symbol = .single (.char '\\'))).isSome :=
      List.find?_isSome.2 ⟨u, hu, decide_eq_true hbackslash⟩
    obtain ⟨v, hfind⟩ := Option.isSome_iff_exists.1 hsome
    obtain ⟨hv, before, after, hwalk, hbefore⟩ := List.find?_eq_some_iff_append.1 hfind
    refine not_describes_of_backslash hwalk (fun w hw => ?_) (of_decide_eq_true hv) hS hdescribes
    exact hreadable w (hwalk ▸ List.mem_append_left _ hw) (by simpa using hbefore w hw)
  · exact fun hne => ⟨_, read_dot fun v hv => hreadable v hv (hne v hv), describes_ofVisits t⟩

end Dot

namespace Grammar

variable {pairs : List (Text × List Text)} {g : Grammar}

/-- The graph of an accepted parse is read back as its tree, with its
nodes, labels and edges, exactly when no node is labelled with a
backslash. -/
theorem dot_law (h : load pairs = .ok g) :
    ∃ s, g.study = .ok s ∧ ∀ text tree, (s.parse text).tree? = some tree →
      ((∃ S, Dot.read tree.dot = some S ∧ Dot.Describes S tree) ↔
        ∀ u ∈ tree.preorder, u.symbol ≠ .single (.char '\\')) := by
  have wf := wellFormed_of_load h
  obtain ⟨s, hs, hof⟩ := exists_study wf
  refine ⟨s, hs, fun text tree htree => Dot.exists_describes_iff fun u hu => ?_⟩
  obtain ⟨c, hc, -⟩ := (hof.isPlain wf htree).exists_single hu
  exact ⟨c, hc⟩

/-- Signs that the language uses itself: the graph is read back. -/
theorem dot_law_of_quotes :
    ∃ g s tree, load [("S", ["\"A-"]), ("A", ["7\u00e9"])] = .ok g ∧ g.study = .ok s ∧
      (s.parse "\"7\u00e9-").tree? = some tree ∧
      ∃ S, Dot.read tree.dot = some S ∧ Dot.Describes S tree := by
  obtain ⟨g, hg⟩ : ∃ g, load [("S", ["\"A-"]), ("A", ["7\u00e9"])] = .ok g := ⟨_, rfl⟩
  obtain ⟨s, hs, hread⟩ := dot_law hg
  have htree : (s.parse "\"7\u00e9-").tree? = some (.node (.single 'S') false
      [.matched (.single '"'), .node (.single 'A') false
        [.matched (.single '7'), .matched (.single '\u00e9')], .matched (.single '-')]) := by
    apply computed_eq (f := fun _ s => (s.parse "\"7\u00e9-").tree?) hg hs
    decide +kernel
  refine ⟨g, s, _, hg, hs, htree, (hread _ _ htree).2 ?_⟩
  decide +kernel

/-- A backslash: its label is written between double quotes without a
change, so it has no end, and nothing can be read. -/
theorem exists_dot_unreadable :
    ∃ g s tree, load [("S", ["\\"])] = .ok g ∧ g.study = .ok s ∧
      (s.parse "\\").tree? = some tree ∧ Dot.read tree.dot = none := by
  obtain ⟨g, hg⟩ : ∃ g, load [("S", ["\\"])] = .ok g := ⟨_, rfl⟩
  obtain ⟨s, hs, -⟩ := exists_study (wellFormed_of_load hg)
  have htree : (s.parse "\\").tree? =
      some (.node (.single 'S') false [.matched (.single '\\')]) := by
    apply computed_eq (f := fun _ s => (s.parse "\\").tree?) hg hs
    decide +kernel
  refine ⟨g, s, _, hg, hs, htree, ?_⟩
  decide +kernel

end Grammar

end Predictive
