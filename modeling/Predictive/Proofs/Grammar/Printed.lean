import Predictive.Grammar.Notation
import Predictive.Grammar.WellFormed
import Predictive.Proofs.Derivation
import Predictive.Proofs.Text.Lines

/-!
# Grammars written out and read back

A grammar is written rule by rule, each rule in one line or in several,
in either style of lines. Reading the lines gives the grammar again,
its rules and their alternatives in the order that they had
(`ofLines_linesOf`), provided that the lines are cut where they were
joined: the mark between alternatives is no terminal, and behind an
equals sign no arrow stands in a right-hand side.

Three facts carry this.

- A right-hand side in normal form is read back from its text
  (`readBody_spell`).
- A line is cut behind its left-hand side, which is a capital letter and
  so no part of an arrow (`readLine_arrows`, `readLine_equations`).
- Lines of one left-hand side that follow each other add up to one rule
  (`addRules_pieces`).
-/

namespace Predictive

variable {A : Symbol} {body : List Symbol} {bodies : List (List Symbol)}

/-! ## Symbols and their texts -/

theorem symbolsOf_spell (h : ∀ s ∈ body, ∃ c, s = Symbol.single c) :
    symbolsOf (spell body) = body := by
  induction body with
  | nil => rfl
  | cons s body ih =>
    obtain ⟨⟨c, rfl⟩, hbody⟩ := List.forall_mem_cons.1 h
    rw [spell_cons, symbolsOf, List.map_append]
    exact congrArg (Symbol.single c :: ·) (ih hbody)

namespace Symbol

/-- A nonterminal is one visible code point, and none of the signs that
tell lines apart. -/
theorem exists_single (h : A.isNonterminal) :
    ∃ c, A = single c ∧ Text.isBlank c = false ∧ c ∉ ("->=#" : Text) := by
  obtain ⟨c, rfl, hA, hZ⟩ := isNonterminal_iff.1 h
  have hfrom : 65 ≤ c.toNat := hA
  have hto : c.toNat ≤ 90 := hZ
  refine ⟨c, rfl, ?_, fun hmem => ?_⟩
  · rw [Bool.eq_false_iff]
    intro hblank
    simp only [Text.isBlank, Bool.or_eq_true, Bool.and_eq_true, decide_eq_true_eq,
      beq_iff_eq] at hblank
    omega
  · have hsmall : ∀ d ∈ ("->=#" : Text), d.toNat < 65 := by decide
    exact absurd (hsmall c hmem) (Nat.not_lt.2 hfrom)

end Symbol

namespace Grammar

namespace NormalBody

theorem isVisible_spell (h : NormalBody body) : (spell body).IsVisible := by
  intro c hc
  obtain ⟨s, hs, hmem⟩ := List.mem_flatMap.1 hc
  obtain ⟨d, rfl, hd⟩ := h.single s hs
  rwa [List.mem_singleton.1 hmem]

theorem symbolsOf_spell (h : NormalBody body) : symbolsOf (spell body) = body :=
  Predictive.symbolsOf_spell fun s hs => (h.single s hs).imp fun _ hc => hc.1

end NormalBody

/-! ## Writing -/

/-- How lines are written: the arrow behind the left-hand side and the
mark between alternatives. -/
structure Style where
  arrow : Text
  mark : CodePoint

namespace Style

def arrows : Style := ⟨"->", '|'⟩

def equations : Style := ⟨"=", '/'⟩

/-- The line of a left-hand side with right-hand sides. -/
def line (style : Style) (head : Symbol) (bodies : List (List Symbol)) : Text :=
  head.text ++ style.arrow ++ Text.join [style.mark] (bodies.map spell)

end Style

/-- A left-hand side with some of its right-hand sides in order. -/
abbrev Piece := Symbol × List (List Symbol)

/-- Rules in pieces, each rule cut in the same way. -/
def cutInto (cut : List (List Symbol) → List (List (List Symbol)))
    (rules : List Piece) : List Piece :=
  rules.flatMap fun (head, bodies) => (cut bodies).map (head, ·)

/-- A line for each piece of a rule. -/
def linesOf (g : Grammar) (style : Style)
    (cut : List (List Symbol) → List (List (List Symbol))) : List Text :=
  (cutInto cut g.rules.entries).map fun (head, bodies) => style.line head bodies

/-- A line for each rule. -/
def ruleLines (g : Grammar) (style : Style) : List Text :=
  g.rules.entries.map fun (head, bodies) => style.line head bodies

/-! ## Reading right-hand sides -/

theorem readBody_spell (h : NormalBody body) (head : Text) :
    readBody head (spell body) = .ok body := by
  rw [readBody, Text.unblank_of_isVisible h.isVisible_spell, h.symbolsOf_spell]
  by_cases hε : body = [Symbol.epsilon]
  · simp [hε]
  · have hfree : Symbol.epsilon ∉ body := fun hmem => hε (h.epsilon_alone hmem)
    simp [h.ne_nil, hε, hfree, h.no_endMarker]

theorem readBodies_spell (h : ∀ body ∈ bodies, NormalBody body) (head : Text) :
    readBodies head (bodies.map spell) = .ok bodies := by
  induction bodies with
  | nil => rfl
  | cons body bodies ih =>
    obtain ⟨hbody, hbodies⟩ := List.forall_mem_cons.1 h
    rw [List.map_cons, readBodies, readBody_spell hbody, ih hbodies]
    rfl

/-! ## Reading rules -/

theorem appendNew_eq_append {old new : List (List Symbol)} (h : (old ++ new).Nodup) :
    appendNew old new = old ++ new := by
  induction new generalizing old with
  | nil => rw [List.append_nil]; rfl
  | cons body new ih =>
    have hnew : body ∉ old := fun hmem =>
      (List.nodup_append.1 h).2.2 body hmem body (List.mem_cons_self ..) rfl
    rw [appendNew_cons, if_neg hnew, ih (by rwa [List.append_assoc]), List.append_assoc]
    rfl

variable {rules : OrderedMap Symbol (List (List Symbol))}

theorem addRule_spell (hA : A.isNonterminal) (h : ∀ body ∈ bodies, NormalBody body) :
    addRule rules (A.text, bodies.map spell) =
      .ok (rules.alter A fun old => appendNew (old.getD []) bodies) := by
  obtain ⟨c, rfl, hc, -⟩ := Symbol.exists_single hA
  have hstrip : Text.strip (Symbol.single c).text = (Symbol.single c).text :=
    Text.strip_of_isVisible fun d hd => List.mem_singleton.1 hd ▸ hc
  rw [addRule, hstrip, if_pos hA, readBodies_spell h]
  rfl

theorem addRules_append {rules' : OrderedMap Symbol (List (List Symbol))}
    {pairs : List (Text × List Text)} (h : addRules rules pairs = .ok rules')
    (rest : List (Text × List Text)) :
    addRules rules (pairs ++ rest) = addRules rules' rest := by
  induction pairs generalizing rules with
  | nil => cases h; rfl
  | cons pair pairs ih =>
    rw [addRules] at h
    rw [List.cons_append, addRules]
    cases hpair : addRule rules pair with
    | error e => rw [hpair] at h; cases h
    | ok next =>
      rw [hpair] at h
      exact ih h

/-- What is read from the line of a piece. -/
def Piece.pair (piece : Piece) : Text × List Text := (piece.1.text, piece.2.map spell)

theorem addRules_pieces (hA : A.isNonterminal) {pieces : List (List (List Symbol))}
    (h : ∀ body ∈ pieces.flatten, NormalBody body)
    {before : List Piece} (hnodup : (bodies ++ pieces.flatten).Nodup)
    (hrules : rules.entries = before ++ [(A, bodies)]) :
    ∃ rules', addRules rules ((pieces.map (A, ·)).map Piece.pair) = .ok rules' ∧
      rules'.entries = before ++ [(A, bodies ++ pieces.flatten)] := by
  -- the rule that grows stays the last one; `bodies` is what was read of it so far
  induction pieces generalizing rules bodies with
  | nil => exact ⟨rules, rfl, by rw [hrules, List.flatten_nil, List.append_nil]⟩
  | cons piece pieces ih =>
    rw [List.flatten_cons] at h hnodup
    obtain ⟨hpiece, hpieces⟩ := List.forall_mem_append.1 h
    rw [← List.append_assoc] at hnodup
    have hentries := rules.entries_alter_last hrules fun old => appendNew (old.getD []) piece
    rw [Option.getD_some, appendNew_eq_append (List.nodup_append.1 hnodup).1] at hentries
    obtain ⟨rules', hread, hrules'⟩ := ih hpieces hnodup hentries
    refine ⟨rules', ?_, by rw [hrules', List.append_assoc, List.flatten_cons]⟩
    rw [List.map_cons, List.map_cons, addRules, Piece.pair, addRule_spell hA hpiece]
    exact hread

theorem addRules_rule (hA : A.isNonterminal) (hnew : A ∉ rules.keys)
    {pieces : List (List (List Symbol))} (hpieces : pieces ≠ [])
    (h : ∀ body ∈ pieces.flatten, NormalBody body) (hnodup : pieces.flatten.Nodup) :
    ∃ rules', addRules rules ((pieces.map (A, ·)).map Piece.pair) = .ok rules' ∧
      rules'.entries = rules.entries ++ [(A, pieces.flatten)] := by
  cases pieces with
  | nil => exact absurd rfl hpieces
  | cons piece pieces =>
    rw [List.flatten_cons] at h hnodup ⊢
    obtain ⟨hpiece, hrest⟩ := List.forall_mem_append.1 h
    have hentries := OrderedMap.entries_alter_of_not_mem hnew
      fun old => appendNew (old.getD []) piece
    have happend : appendNew [] piece = piece :=
      appendNew_eq_append (List.nodup_append.1 hnodup).1
    rw [Option.getD_none, happend] at hentries
    obtain ⟨rules', hread, hrules'⟩ := addRules_pieces hA hrest hnodup hentries
    refine ⟨rules', ?_, hrules'⟩
    rw [List.map_cons, List.map_cons, addRules, Piece.pair, addRule_spell hA hpiece]
    exact hread

/-- A rule that is given back by what is read: a nonterminal with at
least one right-hand side, each in normal form and none twice. -/
structure IsPrintable (rule : Piece) : Prop where
  head : rule.1.isNonterminal
  ne_nil : rule.2 ≠ []
  normal : ∀ body ∈ rule.2, NormalBody body
  distinct : rule.2.Nodup

/-- A way to cut rules: no piece is empty, and the pieces in order are
the rule. -/
structure Cuts (cut : List (List Symbol) → List (List (List Symbol))) : Prop where
  flatten : ∀ bodies, (cut bodies).flatten = bodies
  ne_nil : ∀ bodies, bodies ≠ [] → ∀ piece ∈ cut bodies, piece ≠ []

variable {cut : List (List Symbol) → List (List (List Symbol))}

/-- The pieces of rules with different left-hand sides add up to them,
in their order. -/
theorem addRules_cutInto (hcut : Cuts cut) {new : List Piece}
    (h : ∀ rule ∈ new, IsPrintable rule) (hnodup : (rules.keys ++ new.map Prod.fst).Nodup) :
    ∃ rules', addRules rules ((cutInto cut new).map Piece.pair) = .ok rules' ∧
      rules'.entries = rules.entries ++ new := by
  induction new generalizing rules with
  | nil => exact ⟨rules, rfl, (List.append_nil _).symm⟩
  | cons rule new ih =>
    obtain ⟨hrule, hnew⟩ := List.forall_mem_cons.1 h
    rw [List.map_cons] at hnodup
    have hfresh : rule.1 ∉ rules.keys := fun hmem =>
      (List.nodup_append.1 hnodup).2.2 _ hmem _ (List.mem_cons_self ..) rfl
    have hflatten := hcut.flatten rule.2
    have hpieces : cut rule.2 ≠ [] := by
      intro hnil
      rw [hnil] at hflatten
      exact hrule.ne_nil hflatten.symm
    obtain ⟨next, hread, hnext⟩ := addRules_rule hrule.head hfresh hpieces
      (hflatten.symm ▸ hrule.normal) (hflatten.symm ▸ hrule.distinct)
    rw [hflatten] at hnext
    have hkeys : next.keys = rules.keys ++ [rule.1] := by
      rw [OrderedMap.keys, hnext, List.map_append]
      rfl
    obtain ⟨rules', hread', hrules'⟩ := ih hnew (by rwa [hkeys, List.append_assoc])
    refine ⟨rules', ?_, by rw [hrules', hnext, List.append_assoc]; rfl⟩
    rw [cutInto, List.flatMap_cons, List.map_append, addRules_append hread]
    exact hread'

/-! ## Loading -/

variable {g : Grammar}

theorem isPrintable (wf : g.WellFormed) (hne : ∀ rule ∈ g.rules.entries, rule.2 ≠ []) :
    ∀ rule ∈ g.rules.entries, IsPrintable rule := by
  intro rule hrule
  refine ⟨wf.head_nonterminal _ (List.mem_map_of_mem hrule), hne rule hrule, fun body hbody => ?_,
    wf.distinct _ _ hrule⟩
  exact wf.normal ⟨rule.1, body⟩ (mem_productions.2 ⟨rule.2, hrule, hbody⟩)

theorem load_cutInto (wf : g.WellFormed) (hne : ∀ rule ∈ g.rules.entries, rule.2 ≠ [])
    (hcut : Cuts cut) : load ((cutInto cut g.rules.entries).map Piece.pair) = .ok g := by
  obtain ⟨rules, hread, hrules⟩ :
      ∃ rules, addRules ∅ ((cutInto cut g.rules.entries).map Piece.pair) = .ok rules ∧
        rules.entries = [] ++ g.rules.entries :=
    addRules_cutInto hcut (isPrintable wf hne) g.rules.nodup
  obtain rfl : rules = g.rules := OrderedMap.ext_entries hrules
  have hstart : g.rules.keys.head? = some g.start := wf.start_first
  have hdefined : (⟨g.start, g.rules⟩ : Grammar).undefined? = none := undefined?_eq_none_iff.2 wf.defined
  simp only [load, hread, bind, Except.bind, hstart, hdefined]
  rfl

/-! ## Reading lines -/

theorem isVisible_join {sep : Text} {parts : List Text} (hsep : sep.IsVisible)
    (h : ∀ part ∈ parts, part.IsVisible) : (Text.join sep parts).IsVisible := by
  induction parts with
  | nil => exact List.forall_mem_nil _
  | cons part parts ih =>
    obtain ⟨hpart, hparts⟩ := List.forall_mem_cons.1 h
    cases parts with
    | nil => rwa [Text.join_singleton]
    | cons part' parts =>
      rw [Text.join_cons_cons]
      exact (hpart.append hsep).append (ih hparts)

/-- A line is visible and begins with a capital letter, so it holds a
production, and stripping leaves it alone. -/
theorem line_isVisible {style : Style} (harrow : style.arrow.IsVisible)
    (hmark : Text.isBlank style.mark = false) (hA : A.isNonterminal)
    (h : ∀ body ∈ bodies, NormalBody body) :
    (style.line A bodies).IsVisible ∧ isProductionLine (style.line A bodies) := by
  obtain ⟨c, rfl, hc, hsign⟩ := Symbol.exists_single hA
  constructor
  · refine (Text.IsVisible.append ?_ harrow).append (isVisible_join ?_ ?_)
    · exact fun d hd => List.mem_singleton.1 hd ▸ hc
    · exact fun d hd => List.mem_singleton.1 hd ▸ hmark
    · exact List.forall_mem_map.2 fun body hbody => (h body hbody).isVisible_spell
  · exact bne_iff_ne.2 fun he => hsign (by rw [he]; decide)

theorem splitOn_join {mark : CodePoint} (hne : bodies ≠ [])
    (h : ∀ body ∈ bodies, mark ∉ spell body) :
    (Text.join [mark] (bodies.map spell)).splitOn mark = bodies.map spell :=
  List.splitOn_intercalate mark (List.forall_mem_map.2 h) (by simpa using hne)

theorem readLine_arrows (hA : A.isNonterminal) (hne : bodies ≠ [])
    (h : ∀ body ∈ bodies, .char '|' ∉ spell body) :
    readLine (Style.arrows.line A bodies) = .ok (A.text, bodies.map spell) := by
  obtain ⟨c, rfl, hc, hsign⟩ := Symbol.exists_single hA
  have hcut : Text.cutAt? "->" (Style.arrows.line (.single c) bodies) =
      some ([c], Text.join [.char '|'] (bodies.map spell)) := by
    exact Text.cutAt?_cons_append (by decide)
      (fun hmem => hsign (List.mem_append_left ("=#" : Text) hmem)) _
  have hhead : Text.unblank [c] = [c] :=
    Text.unblank_of_isVisible fun d hd => List.mem_singleton.1 hd ▸ hc
  simp only [readLine, hcut, hhead, splitOn_join hne h]
  rfl

/-- An arrow cannot stand across the mark between two alternatives. -/
theorem not_isInfix_join (h : ∀ body ∈ bodies, ¬ ("->" : Text) <:+: spell body) :
    ¬ ("->" : Text) <:+: Text.join [.char '/'] (bodies.map spell) := by
  induction bodies with
  | nil => decide
  | cons body bodies ih =>
    obtain ⟨hbody, hbodies⟩ := List.forall_mem_cons.1 h
    cases bodies with
    | nil =>
      rw [List.map_singleton, Text.join_singleton]
      exact hbody
    | cons body' bodies =>
      rw [List.map_cons, List.map_cons, Text.join_cons_cons, List.append_assoc]
      intro hinfix
      rcases Text.isInfix_append_cons (by decide) (by decide) hinfix with hinfix | hinfix
      · exact hbody hinfix
      · exact ih hbodies hinfix

theorem readLine_equations (hA : A.isNonterminal) (hne : bodies ≠ [])
    (h : ∀ body ∈ bodies, .char '/' ∉ spell body)
    (harrow : ∀ body ∈ bodies, ¬ ("->" : Text) <:+: spell body) :
    readLine (Style.equations.line A bodies) = .ok (A.text, bodies.map spell) := by
  obtain ⟨c, rfl, hc, hsign⟩ := Symbol.exists_single hA
  have hline : Style.equations.line (.single c) bodies =
      [c] ++ .char '=' :: Text.join [.char '/'] (bodies.map spell) := rfl
  -- an arrow is looked for first, wherever it stands in the line
  have hnone : Text.cutAt? "->" (Style.equations.line (.single c) bodies) = none := by
    refine Text.cutAt?_eq_none fun hinfix => ?_
    rw [hline] at hinfix
    rcases Text.isInfix_append_cons (by decide) (by decide) hinfix with hhead | hjoin
    · exact absurd hhead.length_le (by decide : ¬ 2 ≤ 1)
    · exact not_isInfix_join harrow hjoin
  have hcut : Text.cutAt? "=" (Style.equations.line (.single c) bodies) =
      some ([c], Text.join [.char '/'] (bodies.map spell)) := by
    exact Text.cutAt?_cons_append (by decide : ("=" : Text) ≠ [])
      (fun hmem => hsign (by rw [List.mem_singleton.1 hmem]; decide)) _
  have hhead : Text.unblank [c] = [c] :=
    Text.unblank_of_isVisible fun d hd => List.mem_singleton.1 hd ▸ hc
  simp only [readLine, hnone, hcut, hhead, splitOn_join hne h]
  rfl

theorem readLines_map {pieces : List Piece} {line : Piece → Text}
    (h : ∀ piece ∈ pieces, readLine (line piece) = .ok piece.pair) :
    readLines (pieces.map line) = .ok (pieces.map Piece.pair) := by
  induction pieces with
  | nil => rfl
  | cons piece pieces ih =>
    obtain ⟨hpiece, hpieces⟩ := List.forall_mem_cons.1 h
    rw [List.map_cons, readLines, hpiece, ih hpieces]
    rfl

/-! ## Reading a grammar back -/

theorem mem_cutInto (hcut : Cuts cut) {rules : List Piece} {piece : Piece}
    (h : piece ∈ cutInto cut rules) (hne : ∀ rule ∈ rules, rule.2 ≠ []) :
    piece.2 ≠ [] ∧ ∃ rule ∈ rules, piece.1 = rule.1 ∧ ∀ body ∈ piece.2, body ∈ rule.2 := by
  obtain ⟨rule, hrule, hmem⟩ := List.mem_flatMap.1 h
  obtain ⟨bodies, hbodies, rfl⟩ := List.mem_map.1 hmem
  refine ⟨hcut.ne_nil _ (hne rule hrule) _ hbodies, rule, hrule, rfl, fun body hbody => ?_⟩
  rw [← hcut.flatten rule.2]
  exact List.mem_flatten.2 ⟨bodies, hbodies, hbody⟩

/-- A grammar is read back from its lines in a style in which each line
is read as it was written, from a list of lines and from a text. -/
theorem ofLines_linesOf (wf : g.WellFormed) (hne : ∀ rule ∈ g.rules.entries, rule.2 ≠ [])
    (hcut : Cuts cut) {style : Style} (harrow : style.arrow.IsVisible)
    (hmark : Text.isBlank style.mark = false)
    (hread : ∀ A bodies, A.isNonterminal → bodies ≠ [] →
      (∀ body ∈ bodies, ⟨A, body⟩ ∈ g.productions) →
      readLine (style.line A bodies) = .ok (A.text, bodies.map spell)) :
    ofLines (g.linesOf style cut) = .ok g ∧
      ofText (Text.join "\n" (g.linesOf style cut)) = .ok g := by
  have hpiece : ∀ piece ∈ cutInto cut g.rules.entries, piece.1.isNonterminal ∧ piece.2 ≠ [] ∧
      ∀ body ∈ piece.2, ⟨piece.1, body⟩ ∈ g.productions := by
    intro piece hmem
    obtain ⟨hnil, rule, hrule, hhead, hbodies⟩ := mem_cutInto hcut hmem hne
    rw [hhead]
    exact ⟨wf.head_nonterminal _ (List.mem_map_of_mem hrule), hnil, fun body hbody =>
      mem_productions.2 ⟨rule.2, hrule, hbodies body hbody⟩⟩
  have hlines : ∀ line ∈ g.linesOf style cut, line.IsVisible ∧ isProductionLine line := by
    refine List.forall_mem_map.2 fun piece hmem => ?_
    obtain ⟨hhead, -, hbodies⟩ := hpiece piece hmem
    exact line_isVisible harrow hmark hhead fun body hbody => wf.normal _ (hbodies body hbody)
  have hkept : productionLines (g.linesOf style cut) = g.linesOf style cut := by
    have hstrip : (g.linesOf style cut).map Text.strip = g.linesOf style cut :=
      (List.map_congr_left fun line hline => Text.strip_of_isVisible (hlines line hline).1).trans
        (List.map_id _)
    rw [productionLines, hstrip]
    exact List.filter_eq_self.2 fun line hline => (hlines line hline).2
  have hgrammar : ofLines (g.linesOf style cut) = .ok g := by
    rw [ofLines, hkept, linesOf, readLines_map fun piece hmem =>
      hread _ _ (hpiece piece hmem).1 (hpiece piece hmem).2.1 (hpiece piece hmem).2.2]
    exact load_cutInto wf hne hcut
  refine ⟨hgrammar, ?_⟩
  rw [ofText, Text.lines_join fun line hline => ⟨?_, (hlines line hline).1⟩, hgrammar]
  rintro rfl
  exact absurd (hlines [] hline).2 (by decide)

/-! ## Lines of rules and of productions -/

theorem cuts_whole : Cuts fun bodies => [bodies] where
  flatten _ := List.append_nil _
  ne_nil _ hne _ hmem := List.mem_singleton.1 hmem ▸ hne

theorem cuts_each : Cuts fun bodies => bodies.map ([·]) where
  flatten bodies := by induction bodies <;> simp_all
  ne_nil bodies _ piece hmem := by
    obtain ⟨body, -, rfl⟩ := List.mem_map.1 hmem
    exact List.cons_ne_nil _ _

theorem linesOf_whole (g : Grammar) (style : Style) :
    g.linesOf style (fun bodies => [bodies]) = g.ruleLines style := by
  simp [linesOf, cutInto, ruleLines]

theorem linesOf_each (g : Grammar) :
    g.linesOf .arrows (fun bodies => bodies.map ([·])) = g.productions.map Production.text := by
  have hline : ∀ A body, Style.arrows.line A [body] = Production.text ⟨A, body⟩ := by
    intro A body
    rw [Style.line, List.map_singleton, Text.join_singleton]
    rfl
  simp [linesOf, cutInto, productions, List.map_flatMap, Function.comp_def, hline]

theorem not_mem_spell (wf : g.WellFormed) {c : CodePoint} (hc : (Symbol.single c).isTerminal)
    (h : Symbol.single c ∉ g.terminals) {p : Production} (mem : p ∈ g.productions) :
    c ∉ spell p.rhs := by
  intro hmem
  obtain ⟨s, hs, hin⟩ := List.mem_flatMap.1 hmem
  obtain ⟨d, rfl, -⟩ := (wf.normal p mem).single s hs
  obtain rfl := List.mem_singleton.1 hin
  exact h (mem_terminals.2 ⟨hc, p, mem, hs⟩)

/-- A loaded grammar in which every nonterminal has an alternative is
read back from the lines of its rules and of its productions, and from
the text in which they are joined. Behind arrows the bar must be no
terminal; behind equals signs the slash must be none, and no right-hand
side may hold an arrow. -/
theorem read_printed {pairs : List (Text × List Text)} (h : load pairs = .ok g)
    (hne : ∀ A ∈ g.nonterminals, ∃ p ∈ g.productions, p.lhs = A) :
    (Symbol.single '|' ∉ g.terminals →
      ofLines (g.ruleLines .arrows) = .ok g ∧
      ofText (Text.join "\n" (g.ruleLines .arrows)) = .ok g ∧
      ofLines (g.productions.map Production.text) = .ok g ∧
      ofText (Text.join "\n" (g.productions.map Production.text)) = .ok g) ∧
    (Symbol.single '/' ∉ g.terminals → (∀ p ∈ g.productions, ¬ ("->" : Text) <:+: p.body) →
      ofLines (g.ruleLines .equations) = .ok g ∧
      ofText (Text.join "\n" (g.ruleLines .equations)) = .ok g) := by
  have wf := wellFormed_of_load h
  have hfull : ∀ rule ∈ g.rules.entries, rule.2 ≠ [] := by
    intro rule hrule hnil
    obtain ⟨p, mem, hlhs⟩ := hne rule.1 (List.mem_map_of_mem hrule)
    obtain ⟨bodies, hbodies, hbody⟩ := mem_productions.1 mem
    rw [hlhs] at hbodies
    obtain rfl : bodies = rule.2 := Option.some.inj
      ((OrderedMap.get?_eq_some.2 hbodies).symm.trans (OrderedMap.get?_eq_some.2 hrule))
    rw [hnil] at hbody
    cases hbody
  constructor
  · intro hbar
    have hread : ∀ A bodies, A.isNonterminal → bodies ≠ [] →
        (∀ body ∈ bodies, ⟨A, body⟩ ∈ g.productions) →
        readLine (Style.arrows.line A bodies) = .ok (A.text, bodies.map spell) :=
      fun A bodies hA hnil hmem => readLine_arrows hA hnil fun body hbody =>
        not_mem_spell wf (by decide) hbar (hmem body hbody)
    obtain ⟨hrules, hrulesText⟩ :=
      ofLines_linesOf wf hfull cuts_whole (by decide) (by decide) hread
    obtain ⟨heach, heachText⟩ := ofLines_linesOf wf hfull cuts_each (by decide) (by decide) hread
    rw [linesOf_whole] at hrules hrulesText
    rw [linesOf_each] at heach heachText
    exact ⟨hrules, hrulesText, heach, heachText⟩
  · intro hslash harrow
    have hvisible : Style.equations.arrow.IsVisible := by decide
    have hlines := ofLines_linesOf wf hfull cuts_whole hvisible (by decide)
      fun A bodies hA hnil hmem => readLine_equations hA hnil
        (fun body hbody => not_mem_spell wf (by decide) hslash (hmem body hbody))
        (fun body hbody => harrow _ (hmem body hbody))
    rwa [linesOf_whole] at hlines

/-- A grammar whose terminals are the signs that tell lines apart. -/
theorem read_printed_of_signs :
    ∃ g, load [("S", ["=-#A", "ε"]), ("A", [">", "-"])] = .ok g ∧
      (∀ A ∈ g.nonterminals, ∃ p ∈ g.productions, p.lhs = A) ∧
      g.ruleLines .equations = ["S==-#A/ε", "A=>/-"] ∧
      g.productions.map Production.text = ["S->=-#A", "S->ε", "A->>", "A->-"] ∧
      ofLines ["S->=-#A", "S->ε", "A->>", "A->-"] = .ok g ∧
      ofText "S==-#A/ε\nA=>/-" = .ok g := by
  obtain ⟨g, h⟩ : ∃ g, load [("S", ["=-#A", "ε"]), ("A", [">", "-"])] = .ok g := ⟨_, rfl⟩
  have hfacts : (decide (∀ A ∈ g.nonterminals, ∃ p ∈ g.productions, p.lhs = A),
      decide (Symbol.single '|' ∉ g.terminals ∧ Symbol.single '/' ∉ g.terminals ∧
        ∀ p ∈ g.productions, ¬ ("->" : Text) <:+: p.body),
      decide (g.ruleLines .equations = ["S==-#A/ε", "A=>/-"]),
      decide (g.productions.map Production.text = ["S->=-#A", "S->ε", "A->>", "A->-"])) =
      (true, true, true, true) := by
    cases h
    decide +kernel
  simp only [Prod.mk.injEq, decide_eq_true_eq] at hfacts
  obtain ⟨hne, ⟨hbar, hslash, harrow⟩, hequations, hproductions⟩ := hfacts
  obtain ⟨harrows, hequationsRead⟩ := read_printed h hne
  obtain ⟨-, -, heach, -⟩ := harrows hbar
  obtain ⟨-, htext⟩ := hequationsRead hslash harrow
  rw [hproductions] at heach
  rw [hequations] at htext
  exact ⟨g, h, hne, hequations, hproductions, heach, htext⟩

end Grammar

end Predictive
