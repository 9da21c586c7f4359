import Mathlib.Data.List.Forall2
import Predictive.Proofs.Console.Delivery
import Predictive.Proofs.Console.Rows
import Predictive.Proofs.Grammar.Encodable
import Predictive.Proofs.Machine.Building
import Predictive.Proofs.Session

/-!
# The console program over given texts

With a grammar file and texts to parse the program has nothing to ask
for: it is finished after its first turn, whatever stands on standard
input (`runOn_eq_of_shown`). What that turn prints and how it ends
depends on the lines of the file alone. They are no grammar, or the
grammar has a study. Then the analysis comes out on every terminal, since
the symbols of a grammar that was read from bytes can be encoded, and for
an LL(1) grammar each text is parsed from the beginning and has a section
of the output (`withLines_of_isLL1`).

A section holds a row for each step, with the texts of the step in their
fields, and the outcome below them, all told of what the machine that
builds the tree of the text returns for it (`IsSection`). That it
returns, and nothing fails on the way, holds of every text, since a parse
with the table of an LL(1) grammar comes to its end (`tells_sectionOf`).
What can fail is the heading over a text that the terminal does not take,
and the sections before it have come out then
(`shown_afterParsing_of_refused`).
-/

namespace Predictive

/-- A machine that builds its tree returns when the run of the parse
ends. -/
theorem Builder.exists_returns {t : ParsingTable} {start : Symbol} {text : Text}
    (h : (t.parse start text).ending ≠ .unfinished) :
    ∃ r, Returns t start (symbolsOf (Text.unblank text) ++ [.endMarker]) r := by
  obtain ⟨k, c, -, hreach, hend⟩ := Config.reaches_of_ended h
  obtain ⟨σ, places, b, hpath, hbuilds⟩ := (Builds.initial start _).exists_of_reaches hreach
  rcases hbuilds.step t with ⟨-, hstep⟩ | ⟨_, _, _, _, hnext, -⟩
  · exact ⟨_, b, hpath, hstep⟩
  · cases hend.symm.trans hnext

namespace Console

variable {L : PrintedSheets} {terminal : Encoder} {g : Grammar} {s : Study} {o : Options}
  {lines : List Text} {r : Outcome}

theorem unlines_cons (row : Text) (rows : List Text) :
    Text.unlines (row :: rows) = row ++ "\n" ++ Text.unlines rows := List.flatMap_cons

theorem unlines_append (rows rows' : List Text) :
    Text.unlines (rows ++ rows') = Text.unlines rows ++ Text.unlines rows' :=
  List.flatMap_append

theorem ofString_append (a b : String) :
    Text.ofString a ++ Text.ofString b = Text.ofString (a ++ b) := by
  rw [Text.ofString, Text.ofString, ← List.map_append, ← String.toList_append]
  rfl

theorem unlines_map {α : Type} (f : α → Text) (l : List α) :
    Text.unlines (l.map f) = (l.map (f · ++ "\n")).flatten := by
  rw [Text.unlines, List.flatMap_map, List.flatMap_def]

/-! ## Traces -/

/-- A field with a text at its left: blanks fill it up, and a text that
is longer widens it. -/
def IsField (width : Nat) (t field : Text) : Prop :=
  (∃ n, field = t ++ List.replicate n (.char ' ')) ∧ field.length = max width t.length

/-- A line with a stack, an input and an action: the first two in fields
of their own, and a blank between any two. -/
def IsRow (stack input action row : Text) : Prop :=
  ∃ first second, IsField 30 stack first ∧ IsField 20 input second ∧
    row = first ++ " " ++ second ++ " " ++ action ++ "\n"

/-- What is written about steps: a heading with the text, the titles of
the columns over a rule, and a row for each step. -/
def IsTrace (shown : Text) (steps : List Step) (written : Text) : Prop :=
  ∃ titles rows, IsRow "Stack" "Input" "Action" titles ∧
    List.Forall₂ (fun step row => IsRow step.stackText step.inputText step.action.text row)
      steps rows ∧
    written = "\n--- Parsing: \"" ++ shown ++ "\" ---\n\n" ++ titles ++
      (List.replicate 70 '-' : Text) ++ "\n" ++ rows.flatten

theorem isField_padRight (width : Nat) (t : Text) : IsField width t (Text.padRight width t) := by
  refine ⟨⟨width - t.length, rfl⟩, ?_⟩
  rw [Text.padRight, List.rightpad, List.length_append, List.length_replicate]
  omega

theorem isRow_traceLine (stack input action : Text) :
    IsRow stack input action (traceLine stack input action ++ "\n") :=
  ⟨_, _, isField_padRight 30 stack, isField_padRight 20 input, rfl⟩

theorem isTrace_rows (shown : Text) (steps : List Step) :
    IsTrace shown steps (Text.unlines (parseHeading shown :: traceLine "Stack" "Input" "Action" ::
      List.replicate 70 (.char '-') ::
      steps.map fun x => traceLine x.stackText x.inputText x.action.text)) := by
  refine ⟨_, steps.map fun x => traceLine x.stackText x.inputText x.action.text ++ "\n",
    isRow_traceLine .., ?_, ?_⟩
  · rw [List.forall₂_map_right_iff, List.forall₂_same]
    exact fun x _ => isRow_traceLine ..
  · simp only [unlines_cons, unlines_map, parseHeading, List.append_assoc]
    rfl

/-! ## Sections -/

/-- What is written about the outcome of a parse: the tree, which is a
derivation tree for the text, or the reason with the step and the
position. -/
inductive IsVerdict (g : Grammar) (text : Text) (r : Outcome) : Text → Prop
  | accepted {tree : Tree} (hending : r.ending = .accepted) (hmade : tree.StandsAt r.made 0)
      (hd : Tree.IsDerivation g tree) (hroot : tree.symbol = g.start)
      (hword : tree.word = symbolsOf (Text.unblank text)) :
      IsVerdict g text r ("\nString ACCEPTED!\n\n--- Parse Tree ---\n\n" ++
        Text.join "\n" tree.layoutForm ++ "\n")
  | rejected {why : Rejection} (hending : r.ending = .rejected why) :
      IsVerdict g text r ("\nString REJECTED! (" ++ why.reason ++ " at step " ++
        Text.ofNat r.step ++ ", input position " ++ Text.ofNat r.position ++ ")\n")

/-- What is written about a text, told of what its parse returned: a row
for each step that was recorded, and the outcome below them. -/
def IsSection (g : Grammar) (shown text : Text) (r : Outcome) (written : Text) : Prop :=
  ∃ trace verdict, IsTrace shown (r.rows.map Prod.snd) trace ∧ IsVerdict g text r verdict ∧
    written = trace ++ verdict

theorem isVerdict_of_accepted (wf : g.WellFormed) (hs : s.IsOf g) {text : Text}
    (h : r.IsOf (s.parse text)) (haccept : (s.parse text).isAccepted) :
    IsVerdict g text r (Text.unlines (outcomeLines (s.parse text).report)) := by
  obtain ⟨tree, htree, hd, hroot, hword⟩ := hs.exists_tree wf haccept
  have hmade : tree.StandsAt r.made 0 := by
    rw [Run.tree?, if_pos haccept] at htree
    exact (h.tree tree).2 (Option.some.inj htree).symm
  have houtcome : Text.unlines (outcomeLines (s.parse text).report) =
      "\nString ACCEPTED!\n\n--- Parse Tree ---\n\n" ++ Text.join "\n" tree.layoutForm ++ "\n" := by
    rw [outcomeLines, Run.report, htree, ← tree.layout_eq_layoutForm]
    simp only [unlines_cons, List.append_assoc]
    rfl
  rw [houtcome]
  exact .accepted (h.ending.trans (eq_of_beq haccept)) hmade hd hroot hword

theorem isVerdict_of_rejected {run : Run} {text : Text} {why : Rejection} (h : r.IsOf run)
    (hreject : run.ending = .rejected why) :
    IsVerdict g text r (Text.unlines (outcomeLines run.report)) := by
  have htree : run.report.tree = none := by
    rw [Run.report, Run.tree?, if_neg]
    rw [Run.isAccepted, hreject]
    exact Bool.false_ne_true
  have hreason : run.report.reason = some why.reason := by
    rw [Run.report, hreject]
    rfl
  have houtcome : Text.unlines (outcomeLines run.report) =
      "\nString REJECTED! (" ++ why.reason ++ " at step " ++ Text.ofNat r.step ++
        ", input position " ++ Text.ofNat r.position ++ ")\n" := by
    rw [outcomeLines, htree, hreason, h.step, h.position]
    simp only [unlines_cons, List.append_assoc]
    rfl
  rw [houtcome]
  exact .rejected (h.ending.trans hreject)

/-- The rows about a text that was given; a missing one is parsed as the
empty text. -/
def sectionOf (s : Study) (given : Option Text) : List Text :=
  parseHeading (given.getD "[]") :: parseLines (s.parse (given.getD []))

/-- The section about a text is told of what its parse returned, and this
accepts exactly when the text is accepted. -/
def Tells (g : Grammar) (s : Study) (given : Option Text) (written : Text) : Prop :=
  ∃ r, Builder.Returns s.table g.start
      (symbolsOf (Text.unblank (given.getD [])) ++ [.endMarker]) r ∧
    r.Sound (symbolsOf (Text.unblank (given.getD [])) ++ [.endMarker]) ∧
    (r.ending = .accepted ↔ (s.parse (given.getD [])).isAccepted) ∧
    IsSection g (given.getD "[]") (given.getD []) r written

/-- A parse with the table of an LL(1) grammar returns, and its section
is told of what it returned. -/
theorem tells_sectionOf (wf : g.WellFormed) (hs : s.IsOf g) (hll1 : s.isLL1)
    (given : Option Text) : Tells g s given (Text.unlines (sectionOf s given)) := by
  have hending := hs.ending_parse_ne_unfinished wf hll1 (given.getD [])
  have hparse : s.parse (given.getD []) = s.table.parse g.start (given.getD []) := by
    rw [Study.parse, hs.grammar]
  obtain ⟨r, hr⟩ := Builder.exists_returns (hparse ▸ hending)
  have hof : r.IsOf (s.parse (given.getD [])) := hparse ▸ hr.isOf
  have haccept : r.ending = .accepted ↔ (s.parse (given.getD [])).isAccepted := by
    rw [hof.ending, Run.isAccepted, beq_iff_eq]
  have hverdict : IsVerdict g (given.getD []) r
      (Text.unlines (outcomeLines (s.parse (given.getD [])).report)) := by
    cases hend : (s.parse (given.getD [])).ending with
    | accepted => exact isVerdict_of_accepted wf hs hof (by rw [Run.isAccepted, hend]; rfl)
    | rejected why => exact isVerdict_of_rejected hof hend
    | unfinished => exact absurd hend hending
  refine ⟨r, hr, hr.sound, haccept, _, _, isTrace_rows .., hverdict, ?_⟩
  rw [hof.rows, map_snd_numbered, ← unlines_append]
  rfl

/-! ## Printing sections -/

theorem out_parsing (isVerbose : Bool) (s : Study) (given : Option Text) :
    (parsing isVerbose s given).out = Text.unlines (sectionOf s given) := by
  rw [parsing, Output.out_append, Output.out_append, Output.out_lines, journalOutput,
    Output.out_errorLines, Output.out_lines, List.append_nil, ← unlines_append]
  rfl

/-- What was said, and behind it what is printed about texts. -/
def afterParsing (isVerbose : Bool) (s : Study) (texts : List (Option Text)) (said : Output) :
    Output :=
  texts.foldl (fun o text => o ++ parsing isVerbose s text) said

theorem afterParsing_cons (isVerbose : Bool) (s : Study) (given : Option Text)
    (texts : List (Option Text)) (said : Output) :
    afterParsing isVerbose s (given :: texts) said =
      afterParsing isVerbose s texts (said ++ parsing isVerbose s given) := rfl

theorem out_afterParsing (isVerbose : Bool) (s : Study) (texts : List (Option Text))
    (said : Output) :
    (afterParsing isVerbose s texts said).out =
      said.out ++ (texts.map fun given => Text.unlines (sectionOf s given)).flatten := by
  induction texts generalizing said with
  | nil => exact (List.append_nil _).symm
  | cons given texts ih =>
    rw [afterParsing_cons, ih, Output.out_append, out_parsing, List.map_cons, List.flatten_cons,
      List.append_assoc]

theorem afterParsing_append (isVerbose : Bool) (s : Study) (texts : List (Option Text))
    (said more : Output) :
    afterParsing isVerbose s texts (said ++ more) =
      said ++ afterParsing isVerbose s texts more := by
  induction texts generalizing more with
  | nil => rfl
  | cons given texts ih => rw [afterParsing_cons, afterParsing_cons, ← ih, Output.append_assoc]

section Printing

variable (hs : s.IsOf g) (wf : g.WellFormed) (he : ∀ x, g.IsKnown x → terminal.Takes x.text)
include hs wf he

theorem passes_parsing (isVerbose : Bool) {given : Option Text}
    (h : terminal.Takes (given.getD [])) : (parsing isVerbose s given).Passes terminal := by
  have hshown : terminal.Takes (given.getD "[]") := by
    cases given with
    | none => exact Encoder.takes_ofString _
    | some t => exact h
  have hheading : terminal.Takes (parseHeading (given.getD "[]")) := by
    simp [parseHeading, hshown]
  refine Output.passes_append.2 ⟨Output.passes_append.2 ⟨?_, passes_journalOutput _ _⟩, ?_⟩
  · exact Output.passes_lines (List.forall_mem_singleton.2 hheading)
  · exact Output.passes_lines (hs.takes_parseLines wf he h)

theorem passes_afterParsing (isVerbose : Bool) {texts : List (Option Text)} {said : Output}
    (hsaid : said.Passes terminal) (h : ∀ given ∈ texts, terminal.Takes (given.getD [])) :
    (afterParsing isVerbose s texts said).Passes terminal := by
  induction texts generalizing said with
  | nil => exact hsaid
  | cons given texts ih =>
    obtain ⟨hgiven, htexts⟩ := List.forall_mem_cons.1 h
    exact ih (Output.passes_append.2 ⟨hsaid, passes_parsing hs wf he isVerbose hgiven⟩) htexts

end Printing

/-! ## The first turn -/

/-- What is written before the first section: FIRST and FOLLOW, the text
of the sheet of the table, and that the grammar is LL(1). -/
def IsOpening (L : PrintedSheets) (s : Study) (written : Text) : Prop :=
  ∃ sheet, s.table.sheet L.toSheets = some sheet ∧
    written = "\nFIRST Sets:\n" ++ Text.unlines (s.first.sets.lines "FIRST") ++
      "\nFOLLOW Sets:\n" ++ Text.unlines (s.follow.sets.lines "FOLLOW") ++
      "\nLL(1) PARSING TABLE\n\n" ++ L.text sheet ++
      "\n\n--- Checking LL(1) Conditions ---\n  All LL(1) conditions satisfied.\n" ++
      "\nThe grammar is LL(1). Proceeding...\n"

theorem saying_saying (a b : Output) (t : Turn) : saying a (saying b t) = saying (a ++ b) t :=
  Prod.ext (Output.append_assoc a b t.1).symm rfl

section Turns

variable (hL : L.Lawful) (h : Grammar.ofLines lines = .ok g) (hs : g.study = .ok s)
  (hof : s.IsOf g) (wf : g.WellFormed) (he : ∀ x, g.IsKnown x → terminal.Takes x.text)
include hL h hs hof wf he

/-- The analysis of a grammar comes out, whatever the verdict is. -/
theorem withLines_eq : ∃ (said : Output) (sheet : L.Sheet),
    s.table.sheet L.toSheets = some sheet ∧ said.Passes terminal ∧
      said.out = Text.unlines (setLines s ++ L.text sheet :: conditionLines s) ∧
      withLines L o lines = saying said (withVerdict o s) := by
  have htidy := hof.isTidy_table wf
  obtain ⟨sheet, hsheet, hshows⟩ := hL.toLawful.exists_sheet htidy.rows htidy.columns
  refine ⟨journalOutput o.isVerbose (Journal.loaded g ++ g.reportStudy.records) ++
    (.lines (setLines s) ++ .lines (L.text sheet :: conditionLines s)), sheet, hsheet, ?_, ?_, ?_⟩
  · refine Output.passes_append.2 ⟨passes_journalOutput _ _, Output.passes_append.2 ⟨?_, ?_⟩⟩
    · exact Output.passes_lines (hof.takes_setLines wf he)
    · exact Output.passes_lines (List.forall_mem_cons.2
        ⟨hof.takes_sheet wf he hL hshows, hof.takes_conditionLines wf he⟩)
  · rw [Output.out_append, Output.out_append, Output.out_lines, Output.out_lines, journalOutput,
      Output.out_errorLines, List.nil_append, unlines_append]
  · rw [withLines, h]
    simp only [Grammar.outcome_reportStudy, hs, withStudy, hsheet, saying_saying]

theorem withLines_of_isLL1 (htexts : o.texts ≠ []) (hll1 : s.isLL1) : ∃ opening : Output,
    opening.Passes terminal ∧ IsOpening L s opening.out ∧
      withLines L o lines =
        (afterParsing o.isVerbose s o.texts opening,
          .finished (.code (if o.texts.all fun given => (s.parse (given.getD [])).isAccepted
            then 0 else 2))) := by
  obtain ⟨said, sheet, hsheet, hpasses, hout, hturn⟩ := withLines_eq hL h hs hof wf he (o := o)
  have hsome : o.texts.isEmpty = false := List.isEmpty_eq_false_iff.2 htexts
  have hnone : s.conflicts = [] := List.isEmpty_iff.1 hll1
  refine ⟨said ++ .lines ["\nThe grammar is LL(1). Proceeding..."], ?_, ⟨sheet, hsheet, ?_⟩, ?_⟩
  · exact Output.passes_append.2 ⟨hpasses,
      Output.passes_lines (List.forall_mem_singleton.2 (Encoder.takes_ofString _))⟩
  · rw [Output.out_append, hout, Output.out_lines, setLines, conditionLines, hnone, hll1]
    simp [Text.unlines, ofString_append]
  · rw [hturn, withVerdict, hll1, if_pos rfl, saying_saying, hsome, if_neg Bool.false_ne_true,
      saying, parseAll, ← afterParsing, ← afterParsing_append, Output.append_nothing]

theorem withLines_of_not_isLL1 (htexts : o.texts ≠ []) (hll1 : s.isLL1 = false) :
    ∃ said : Output, said.Passes terminal ∧
      withLines L o lines = (said, .finished (.code 1)) := by
  obtain ⟨said, sheet, hsheet, hpasses, hout, hturn⟩ := withLines_eq hL h hs hof wf he (o := o)
  have hsome : o.texts.isEmpty = false := List.isEmpty_eq_false_iff.2 htexts
  refine ⟨said ++ .lines ["\nThe grammar is NOT LL(1). Cannot proceed with parsing."], ?_, ?_⟩
  · exact Output.passes_append.2 ⟨hpasses,
      Output.passes_lines (List.forall_mem_singleton.2 (Encoder.takes_ofString _))⟩
  · rw [hturn, withVerdict, hll1, if_neg Bool.false_ne_true, hsome, if_neg Bool.false_ne_true]
    rfl

end Turns

/-! ## What comes out -/

/-- The lines are no grammar, or one that is not LL(1). -/
def IsUnfit (lines : List Text) : Prop :=
  (∃ e, Grammar.ofLines lines = .error e) ∨
    ∃ g s, Grammar.ofLines lines = .ok g ∧ g.study = .ok s ∧ s.isLL1 = false

/-- Every text that was given can be encoded. -/
def AreTaken (terminal : Encoder) (texts : List (Option Text)) : Prop :=
  ∀ given ∈ texts, terminal.Takes (given.getD [])

theorem areTaken_lenient (texts : List (Option Text)) : AreTaken .lenient texts :=
  fun _ _ => Encoder.takes_lenient _

/-- A grammar that is read and its study are the only ones. -/
theorem study_unique {g' : Grammar} {s' : Study} (h : Grammar.ofLines lines = .ok g)
    (hs : g.study = .ok s) (h' : Grammar.ofLines lines = .ok g') (hs' : g'.study = .ok s') :
    g = g' ∧ s = s' := by
  obtain rfl := Except.ok.inj (h.symm.trans h')
  exact ⟨rfl, Except.ok.inj (hs.symm.trans hs')⟩

theorem not_isUnfit (h : Grammar.ofLines lines = .ok g) (hs : g.study = .ok s)
    (hll1 : s.isLL1) : ¬ IsUnfit lines := by
  rintro (⟨e, he⟩ | ⟨g', s', hg', hs', hno⟩)
  · cases h.symm.trans he
  · obtain ⟨rfl, rfl⟩ := study_unique h hs hg' hs'
    exact Bool.false_ne_true (hno.symm.trans hll1)

theorem exists_study (h : Grammar.ofLines lines = .ok g) :
    g.WellFormed ∧ ∃ s, g.study = .ok s ∧ s.IsOf g :=
  have hread : (Source.lines lines).read = .ok g := h
  Source.exists_study hread

theorem exists_isLL1_of_not_isUnfit (h : ¬ IsUnfit lines) :
    ∃ g s, Grammar.ofLines lines = .ok g ∧ g.study = .ok s ∧ s.isLL1 := by
  cases hg : Grammar.ofLines lines with
  | error e => exact absurd (Or.inl ⟨e, hg⟩) h
  | ok g =>
    obtain ⟨-, s, hs, -⟩ := exists_study hg
    refine ⟨g, s, rfl, hs, ?_⟩
    by_contra hll1
    exact h (Or.inr ⟨g, s, hg, hs, eq_false_of_ne_true hll1⟩)

theorem exists_study_iff {P : Study → Prop} (h : Grammar.ofLines lines = .ok g)
    (hs : g.study = .ok s) :
    (∃ g' s', Grammar.ofLines lines = .ok g' ∧ g'.study = .ok s' ∧ P s') ↔ P s := by
  constructor
  · rintro ⟨g', s', hg', hs', hP⟩
    obtain ⟨rfl, rfl⟩ := study_unique h hs hg' hs'
    exact hP
  · intro hP
    exact ⟨g, s, h, hs, hP⟩

section Sections

variable (hs : s.IsOf g) (wf : g.WellFormed) (he : ∀ x, g.IsKnown x → terminal.Takes x.text)
  {opening : Output} (hopening : opening.Passes terminal) (isVerbose : Bool) (phase : Phase)
include hs wf he hopening

theorem shown_afterParsing_of_areTaken {texts : List (Option Text)}
    (h : AreTaken terminal texts) :
    ∃ said, shown terminal (afterParsing isVerbose s texts opening, phase) = (said, phase) ∧
      said.out =
        opening.out ++ (texts.map fun given => Text.unlines (sectionOf s given)).flatten := by
  have hpasses := passes_afterParsing hs wf he isVerbose hopening h
  refine ⟨_, shown_of_passes hpasses, ?_⟩
  rw [hpasses.out_delivered, out_afterParsing]

/-- At the heading over the first text that cannot be encoded the program
breaks off. The sections before it have come out. -/
theorem shown_afterParsing_of_refused {before after : List (Option Text)} {t : Text}
    (hbefore : AreTaken terminal before) (ht : ¬ terminal.Takes t) :
    ∃ why said, terminal.refusal? (parseHeading t ++ "\n") = some why ∧
      shown terminal (afterParsing isVerbose s (before ++ some t :: after) opening, phase) =
        (said, .finished (.unencodable why)) ∧
      said.out =
        opening.out ++ (before.map fun given => Text.unlines (sectionOf s given)).flatten := by
  have hpasses := passes_afterParsing hs wf he isVerbose hopening hbefore
  obtain ⟨why, hwhy⟩ : ∃ why, terminal.refusal? (parseHeading t ++ "\n") = some why := by
    refine Encoder.exists_refusal? fun htakes => ht ?_
    simpa [parseHeading] using htakes
  have hprint : Print.refusal? terminal ⟨.results, parseHeading t ++ "\n"⟩ = some why := hwhy
  -- the heading is the first print behind what comes out
  have hfold : afterParsing isVerbose s (before ++ some t :: after) opening =
      afterParsing isVerbose s before opening ++
        (parsing isVerbose s (some t) ++ afterParsing isVerbose s after .nothing) := by
    rw [afterParsing, List.foldl_append, ← afterParsing, ← afterParsing, afterParsing_cons,
      ← Output.append_assoc, ← afterParsing_append, Output.append_nothing]
  rw [hfold]
  refine ⟨why, _, hwhy, shown_of_refused hpasses rfl hprint, ?_⟩
  rw [hpasses.out_delivered_append rfl hprint, out_afterParsing]

end Sections

section Turns

variable (hL : L.Lawful) (hlines : ∀ line ∈ lines, terminal.Takes line) (htexts : o.texts ≠ [])
include hL hlines htexts

theorem shown_withLines_of_isUnfit (h : IsUnfit lines) :
    ∃ said, shown terminal (withLines L o lines) = (said, .finished (.code 1)) := by
  rcases h with ⟨e, he⟩ | ⟨g, s, hg, hs, hll1⟩
  · rw [withLines, he]
    exact ⟨_, shown_of_passes (Output.passes_errorLines _)⟩
  · obtain ⟨wf, s', hs', hof⟩ := exists_study hg
    obtain rfl := Except.ok.inj (hs.symm.trans hs')
    obtain ⟨said, hpasses, hturn⟩ := withLines_of_not_isLL1 hL hg hs hof wf
      (fun x hx => Grammar.takes_of_ofLines hlines hg hx) htexts hll1
    rw [hturn]
    exact ⟨_, shown_of_passes hpasses⟩

theorem shown_withLines_of_isLL1 (h : Grammar.ofLines lines = .ok g) (hs : g.study = .ok s)
    (hll1 : s.isLL1) : ∃ said f opening sections,
      shown terminal (withLines L o lines) = (said, .finished f) ∧
      IsOpening L s opening ∧ List.Forall₂ (Tells g s) o.texts sections ∧
      (AreTaken terminal o.texts → said.out = opening ++ sections.flatten ∧
        f = .code (if o.texts.all fun given => (s.parse (given.getD [])).isAccepted
          then 0 else 2)) ∧
      ∀ before t after, o.texts = before ++ some t :: after → AreTaken terminal before →
        ¬ terminal.Takes t → ∃ why,
          terminal.refusal? ("\n--- Parsing: \"" ++ t ++ "\" ---\n\n") = some why ∧
          f = .unencodable why ∧
          said.out = opening ++ (sections.take before.length).flatten := by
  obtain ⟨wf, s', hs', hof⟩ := exists_study h
  obtain rfl := Except.ok.inj (hs.symm.trans hs')
  have he := fun x hx => Grammar.takes_of_ofLines hlines h (s := x) hx
  obtain ⟨opening, hpasses, hopening, hturn⟩ := withLines_of_isLL1 hL h hs hof wf he htexts hll1
  obtain ⟨said, f, hshown⟩ : ∃ said f, shown terminal (withLines L o lines) =
      (said, .finished f) := by
    rw [hturn, shown]
    cases Output.refusal? terminal _ <;> exact ⟨_, _, rfl⟩
  refine ⟨said, f, opening.out, o.texts.map fun given => Text.unlines (sectionOf s given),
    hshown, hopening, ?_, ?_, ?_⟩
  · rw [List.forall₂_map_right_iff, List.forall₂_same]
    exact fun given _ => tells_sectionOf wf hof hll1 given
  · intro htaken
    obtain ⟨said', hshown', hout⟩ :=
      shown_afterParsing_of_areTaken hof wf he hpasses o.isVerbose _ htaken
    cases hshown.symm.trans (hturn ▸ hshown')
    exact ⟨hout, rfl⟩
  · intro before t after hsplit hbefore ht
    obtain ⟨why, said', hwhy, hshown', hout⟩ :=
      shown_afterParsing_of_refused hof wf he hpasses o.isVerbose _ hbefore ht
    rw [← hsplit] at hshown'
    cases hshown.symm.trans (hturn ▸ hshown')
    refine ⟨why, ?_, rfl, ?_⟩
    · rw [← hwhy, parseHeading]
      simp [ofString_append]
    · rw [hout, hsplit, List.map_append, List.take_left']
      rw [List.length_map]

end Turns

/-! ## The program -/

theorem converse_finished (f : Finish) (answers : List Text) :
    converse L terminal o (.finished f) answers = (.nothing, f) := by
  cases answers <;> rfl

/-- A program that is finished after its first turn does not read its
input. -/
theorem runOn_eq_of_shown {args : List Text} {folder : Folder} {path text : Text}
    {bytes : List UInt8} {said : Output} {f : Finish} (hargs : Order.ofArgs args = .work o)
    (hfile : o.file = some path) (hread : folder.read path = .ok bytes)
    (hutf8 : Text.ofUtf8 bytes = .ok text)
    (h : shown terminal (withLines L o (Text.lines text)) = (said, .finished f)) (input : Text) :
    runOn L terminal args folder input = (said, f) := by
  have hstart : start L o folder.read = withLines L o (Text.lines text) := by
    rw [start, hfile]
    simp only [hread, hutf8]
  rw [runOn, hargs]
  simp only [hstart, h, converse_finished, Output.append_nothing]

end Console

end Predictive
