import Predictive.Proofs.Session

/-!
# Sessions field by field

A session keeps its study as one piece, so it cannot hold half of one.
Here it is taken apart: the start symbol, the rules, the sets, the
table and so on are fields of their own, reading writes them one after
another, and a call that stops half-way leaves what it wrote so far
(`Call`). Nothing in these definitions keeps the fields of two grammars
apart.

They stay apart all the same. Reading stops, if at all, before its
first write (`Fields.run_read_error`): behind that write only the study
could stop it, and a grammar that was read can be studied
(`Source.exists_study`). Solving writes the result and the columns and
nothing else (`run_solve`). So the fields after any requests are those
of a session that was served the same requests (`serveAll_fields`), and
what they hold is determined by the lines of the last read that
succeeded (`fields_of_last_grammar`).
-/

namespace Predictive

/-- The run of an answer, when the text was parsed. -/
def Answer.run? : Answer → Option Run
  | .parsed run => some run
  | _ => .none

namespace Session

/-! ## Fields -/

/-- The fields of a session. -/
structure Fields where
  source : Source
  grammar : Option Grammar
  formulas : OrderedMap Symbol (List Text)
  start : Text
  nonterminals : List Symbol
  terminals : List Symbol
  first : SetMap
  follow : SetMap
  isLL1 : Bool
  conflicts : List Conflict
  table : Option ParsingTable
  result : Option Run
  info : Option AnswerTable
deriving DecidableEq

/-- What makes a call stop. -/
inductive Stop where
  | failure (f : Failure)
  /-- A field is used that was not written yet. -/
  | unwritten
deriving DecidableEq

/-- A call works on the fields. What it wrote before it stopped
stays. -/
abbrev Call := ExceptT Stop (StateM Fields)

/-- The columns that stand for a text that was not looked at. -/
def refusal : AnswerTable :=
  ⟨[], [], [], [], "error: grammar is not LL(1), input not analysed"⟩

/-- The columns and the message of a run. -/
def columnsOf (run : Run) : AnswerTable where
  numberColumn := run.steps.zipIdx.map fun (_, i) => i + 1
  stackColumn := run.steps.map Step.stackText
  inputColumn := run.steps.map Step.inputText
  actionColumn := run.steps.map fun s => s.action.text
  verdict := run.report.message

namespace Fields

/-- The fields of a session that has read nothing yet. -/
def new (source : Source) : Fields where
  source := source
  grammar := none
  formulas := ∅
  start := []
  nonterminals := []
  terminals := []
  first := ∅
  follow := ∅
  isLL1 := false
  conflicts := []
  table := none
  result := none
  info := none

/-- Writes what a grammar is, field by field. -/
def writeGrammar (g : Grammar) : Call Unit := do
  modify fun f => { f with grammar := some g }
  modify fun f => { f with formulas := g.rules.map fun _ bodies => bodies.map spell }
  modify fun f => { f with start := g.start.text }
  modify fun f => { f with nonterminals := g.nonterminals }
  modify fun f => { f with terminals := g.terminals }

/-- Writes what a study found, field by field. -/
def writeStudy (s : Study) : Call Unit := do
  modify fun f => { f with first := s.first.sets }
  modify fun f => { f with follow := s.follow.sets }
  modify fun f => { f with isLL1 := s.isLL1 }
  modify fun f => { f with conflicts := s.conflicts }
  modify fun f => { f with table := some s.table }

/-- Reads the lines and writes their grammar, then studies it and writes
the study. -/
def read : Call Unit := do
  let f ← get
  let g ← (f.source.read.mapError (.failure ∘ .grammar) : Except Stop Grammar)
  writeGrammar g
  let s ← (g.study.mapError (.failure ∘ .analysis) : Except Stop Study)
  writeStudy s

/-- Answers a text with the verdict, the table and the grammar that the
fields hold. -/
def solve (text : Text) : Call AnswerTable := do
  let f ← get
  if f.isLL1 then
    match f.table, f.grammar with
    | some table, some g =>
      let run := table.parse g.start text
      modify fun f => { f with result := some run }
      modify fun f => { f with info := some (columnsOf run) }
      return columnsOf run
    | _, _ => throw .unwritten
  else
    modify fun f => { f with result := none }
    modify fun f => { f with info := some refusal }
    return refusal

/-- The fields after a request, whether the call came to its end or
not. -/
def serve (f : Fields) : Request → Fields
  | .replace source => { f with source := source }
  | .read => (read.run f).2
  | .solve text => ((solve text).run f).2

/-- The fields after requests, one after another. -/
def serveAll (f : Fields) (requests : List Request) : Fields := requests.foldl serve f

/-! ## Fields about one grammar -/

/-- The fields about a grammar are as they were in the beginning. -/
structure IsBlank (f : Fields) : Prop where
  grammar : f.grammar = none
  formulas : f.formulas = ∅
  start : f.start = []
  nonterminals : f.nonterminals = []
  terminals : f.terminals = []
  first : f.first = ∅
  follow : f.follow = ∅
  isLL1 : f.isLL1 = false
  conflicts : f.conflicts = []
  table : f.table = none

/-- The fields about a grammar are all those of `g` and of its
study. -/
structure IsOf (f : Fields) (g : Grammar) (s : Study) : Prop where
  grammar : f.grammar = some g
  formulas : f.formulas = g.rules.map fun _ bodies => bodies.map spell
  start : f.start = g.start.text
  nonterminals : f.nonterminals = g.nonterminals
  terminals : f.terminals = g.terminals
  first : f.first = s.first.sets
  follow : f.follow = s.follow.sets
  isLL1 : f.isLL1 = s.isLL1
  conflicts : f.conflicts = s.conflicts
  table : f.table = some s.table

/-- The fields with everything about `g` written. -/
def write (f : Fields) (g : Grammar) (s : Study) : Fields :=
  { f with
    grammar := some g
    formulas := g.rules.map fun _ bodies => bodies.map spell
    start := g.start.text
    nonterminals := g.nonterminals
    terminals := g.terminals
    first := s.first.sets
    follow := s.follow.sets
    isLL1 := s.isLL1
    conflicts := s.conflicts
    table := some s.table }

/-- The fields with an answer written. -/
def answered (f : Fields) (a : Answer) : Fields :=
  { f with result := a.run?, info := a.table? }

end Fields

/-- The fields that a session keeps in one piece. -/
def fields (σ : Session) : Fields :=
  let blank := Fields.new σ.source
  (match σ.study with
    | none => blank
    | some s => blank.write s.grammar s).answered σ.answer

namespace Fields

variable {α : Type} {f : Fields} {g : Grammar} {s : Study} {e : GrammarError} {text : Text}

/-! ## Calls -/

/-- A call goes on with what the first part returned, on the fields that
it left. -/
theorem run_bind {α β : Type} (call : Call α) (rest : α → Call β) (f : Fields) :
    (call >>= rest).run f =
      match call.run f with
      | (.ok a, f') => (rest a).run f'
      | (.error stop, f') => (.error stop, f') := by
  show (match call.run f with
    | (x, f') => (ExceptT.bindCont rest x).run f') = _
  rcases call.run f with ⟨a | stop, f'⟩ <;> rfl

theorem run_get (f : Fields) : (get : Call Fields).run f = (.ok f, f) := rfl

theorem run_lift (x : Except Stop α) : (liftM x : Call α).run f = (x, f) := rfl

theorem run_writeGrammar : (writeGrammar g).run f =
    (.ok (), { f with
      grammar := some g
      formulas := g.rules.map fun _ bodies => bodies.map spell
      start := g.start.text
      nonterminals := g.nonterminals
      terminals := g.terminals }) := rfl

theorem run_writeStudy : (writeStudy s).run f =
    (.ok (), { f with
      first := s.first.sets
      follow := s.follow.sets
      isLL1 := s.isLL1
      conflicts := s.conflicts
      table := some s.table }) := rfl

theorem run_read_error (h : f.source.read = .error e) :
    read.run f = (.error (.failure (.grammar e)), f) := by
  simp only [read, run_bind, run_get, run_lift, h, Except.mapError, Function.comp_apply]

theorem run_read_ok (h : f.source.read = .ok g) (hs : g.study = .ok s) :
    read.run f = (.ok (), f.write g s) := by
  simp only [read, run_bind, run_get, run_lift, h, hs, Except.mapError, run_writeGrammar,
    run_writeStudy, write]

theorem run_solve_refused (h : f.isLL1 = false) :
    (solve text).run f = (.ok refusal, f.answered .refused) := by
  simp only [solve, run_bind, run_get, h]
  rfl

theorem run_solve_parsed (h : f.isLL1 = true) {t : ParsingTable} (ht : f.table = some t)
    (hg : f.grammar = some g) :
    (solve text).run f =
      (.ok (columnsOf (t.parse g.start text)), f.answered (.parsed (t.parse g.start text))) := by
  simp only [solve, run_bind, run_get, h, ht, hg]
  rfl

end Fields

/-! ## The session in one piece -/

variable {σ : Session}

theorem fields_isLL1 (σ : Session) : σ.fields.isLL1 = σ.isLL1 := by
  obtain ⟨source, _ | s, answer⟩ := σ <;> rfl

theorem fields_source (σ : Session) : σ.fields.source = σ.source := by
  obtain ⟨source, _ | s, answer⟩ := σ <;> rfl

/-- Solving writes the result and what is shown of it, and nothing
else. -/
theorem fields_solve (σ : Session) (text : Text) :
    (σ.solve text).fields = σ.fields.answered (σ.solve text).answer := by
  obtain ⟨source, study, answer⟩ := σ
  rw [fields, (solve_source_study _ _).1, (solve_source_study _ _).2]
  rfl

theorem run_solve (σ : Session) (text : Text) :
    ∃ info, (σ.solve text).answer.table? = some info ∧
      (Fields.solve text).run σ.fields =
        (.ok info, σ.fields.answered (σ.solve text).answer) := by
  cases hll1 : σ.isLL1 with
  | false =>
    have hanswer : (σ.solve text).answer = .refused := by
      obtain ⟨source, _ | s, answer⟩ := σ
      · rfl
      · rw [solve]
        exact congrArg Session.answer (if_neg (Bool.eq_false_iff.1 hll1))
    rw [hanswer]
    exact ⟨_, rfl, Fields.run_solve_refused (σ.fields_isLL1.trans hll1)⟩
  | true =>
    obtain ⟨source, _ | s, answer⟩ := σ
    · cases hll1
    have hanswer : (solve ⟨source, some s, answer⟩ text).answer = .parsed (s.parse text) := by
      rw [solve]
      exact congrArg Session.answer (if_pos hll1)
    rw [hanswer]
    exact ⟨_, rfl, Fields.run_solve_parsed hll1 rfl rfl⟩

theorem serve_read_error {e : GrammarError} (h : σ.source.read = .error e) :
    σ.serve .read = σ := by
  rw [serve, read, outcome_reportRead, h]
  rfl

theorem serve_read_ok {g : Grammar} {s : Study} (h : σ.source.read = .ok g)
    (hs : g.study = .ok s) : σ.serve .read = { σ with study := some s } := by
  have hread : σ.read = .ok { σ with study := some s } := by
    rw [read, outcome_reportRead, h]
    show (g.study.mapError Failure.analysis).map _ = _
    rw [hs]
    rfl
  rw [serve, hread]

theorem fields_read (σ : Session) : σ.fields.serve .read = (σ.serve .read).fields := by
  rw [Fields.serve]
  cases hread : σ.source.read with
  | error e => rw [Fields.run_read_error (σ.fields_source.symm ▸ hread), serve_read_error hread]
  | ok g =>
    -- the study cannot stop the read behind its first write
    obtain ⟨-, s, hs, hof⟩ := Source.exists_study hread
    obtain rfl := hof.grammar
    rw [Fields.run_read_ok (σ.fields_source.symm ▸ hread) hs, serve_read_ok hread hs]
    obtain ⟨source, _ | s', answer⟩ := σ <;> rfl

/-- The fields and the session in one piece serve a request alike. -/
theorem serve_fields (σ : Session) (request : Request) :
    σ.fields.serve request = (σ.serve request).fields := by
  cases request with
  | replace source =>
    obtain ⟨source', _ | s, answer⟩ := σ <;> rfl
  | read => exact fields_read σ
  | solve text =>
    obtain ⟨info, -, hrun⟩ := run_solve σ text
    rw [Fields.serve, hrun, serve, fields_solve]

theorem serveAll_fields (σ : Session) (requests : List Request) :
    σ.fields.serveAll requests = (σ.serveAll requests).fields := by
  induction requests generalizing σ with
  | nil => rfl
  | cons request requests ih =>
    show (σ.fields.serve request).serveAll requests = ((σ.serve request).serveAll requests).fields
    rw [serve_fields, ih]

/-! ## The grammar read last -/

/-- What requests leave to be known: the lines in force, and the grammar
of the last read that succeeded. -/
structure Reading where
  source : Source
  grammar : Option Grammar

/-- What is known after one more request. A text makes no difference,
and neither do lines that are no grammar. -/
def Reading.next (r : Reading) : Request → Reading
  | .replace source => { r with source := source }
  | .read =>
    match r.source.read with
    | .ok g => { r with grammar := some g }
    | .error _ => r
  | .solve _ => r

/-- What requests to a new session leave to be known. -/
def readingAfter (source : Source) (requests : List Request) : Reading :=
  requests.foldl Reading.next ⟨source, none⟩

/-- What is answered to a text when `g` was read last. -/
def answerFor (g : Option Grammar) (text : Text) : Answer :=
  match g with
  | none => .refused
  | some g =>
    match g.study with
    | .ok s => if s.isLL1 then .parsed (s.table.parse g.start text) else .refused
    | .error _ => .refused

/-- A session holds what is known to have been read last. -/
structure Holds (σ : Session) (r : Reading) : Prop where
  source : σ.source = r.source
  blank : r.grammar = none → σ.study = none
  known : ∀ g, r.grammar = some g → ∃ s, g.study = .ok s ∧ s.grammar = g ∧ σ.study = some s

namespace Holds

variable {r : Reading}

theorem serve (h : σ.Holds r) (request : Request) : (σ.serve request).Holds (r.next request) := by
  cases request with
  | replace source => exact ⟨rfl, h.blank, h.known⟩
  | read =>
    rw [Reading.next, ← h.source]
    cases hread : σ.source.read with
    | error e => rwa [serve_read_error hread]
    | ok g =>
      obtain ⟨-, s, hs, hof⟩ := Source.exists_study hread
      rw [serve_read_ok hread hs]
      refine ⟨rfl, (fun hnone => by cases hnone), fun g' hg' => ?_⟩
      cases hg'
      exact ⟨s, hs, hof.grammar, rfl⟩
  | solve text =>
    obtain ⟨hsource, hstudy⟩ := σ.solve_source_study text
    exact ⟨hsource.trans h.source, fun hnone => hstudy.trans (h.blank hnone), fun g hg => by
      rw [Session.serve, hstudy]
      exact h.known g hg⟩

theorem serveAll (h : σ.Holds r) (requests : List Request) :
    (σ.serveAll requests).Holds (requests.foldl Reading.next r) := by
  induction requests generalizing σ r with
  | nil => exact h
  | cons request requests ih => exact ih (h.serve request)

/-- The fields of a session are about the grammar read last. -/
theorem fields (h : σ.Holds r) :
    match r.grammar with
    | none => σ.fields.IsBlank
    | some g => ∃ s, g.study = .ok s ∧ σ.fields.IsOf g s := by
  obtain ⟨source, study, answer⟩ := σ
  obtain ⟨source', _ | g⟩ := r
  · obtain rfl := h.blank rfl
    exact ⟨rfl, rfl, rfl, rfl, rfl, rfl, rfl, rfl, rfl, rfl⟩
  · obtain ⟨s, hs, rfl, rfl⟩ := h.known _ rfl
    exact ⟨s, hs, rfl, rfl, rfl, rfl, rfl, rfl, rfl, rfl, rfl, rfl⟩

/-- A session answers for the grammar read last. -/
theorem answer_solve (h : σ.Holds r) (text : Text) :
    (σ.solve text).answer = answerFor r.grammar text := by
  obtain ⟨source, study, answer⟩ := σ
  obtain ⟨source', _ | g⟩ := r
  · obtain rfl := h.blank rfl
    rfl
  · obtain ⟨s, hs, rfl, rfl⟩ := h.known _ rfl
    simp only [solve, answerFor, hs]
    split <;> rfl

end Holds

/-- The fields after any requests to a new session are those of the
session that keeps its study in one piece. They are about one grammar,
that of the last read that succeeded, or untouched when there was none.
One more read either finds lines that are no grammar and changes no
field, or writes all that is known of the grammar that it found. A text
changes the result and what is shown of it only, and the answer follows
from that one grammar and the text. -/
theorem fields_of_last_grammar (source : Source) (requests : List Request) :
    let σ := (new source).serveAll requests
    let f := (Fields.new source).serveAll requests
    let r := readingAfter source requests
    f = σ.fields ∧ f.source = r.source ∧
      (match r.grammar with
        | none => f.IsBlank
        | some g => ∃ s, g.study = .ok s ∧ f.IsOf g s) ∧
      (match r.source.read with
        | .error e => Fields.read.run f = (.error (.failure (.grammar e)), f)
        | .ok g => ∃ s, g.study = .ok s ∧ Fields.read.run f = (.ok (), f.write g s)) ∧
      ∀ text, (σ.solve text).answer = answerFor r.grammar text ∧
        ∃ info, (answerFor r.grammar text).table? = some info ∧
          (Fields.solve text).run f = (.ok info,
            { f with result := (answerFor r.grammar text).run?, info := some info }) := by
  intro σ f r
  have hf : f = σ.fields := serveAll_fields (new source) requests
  have hσ : σ.Holds r := Holds.serveAll ⟨rfl, fun _ => rfl, fun _ hg => by cases hg⟩ requests
  have hsource : f.source = r.source := by rw [hf, fields_source, hσ.source]
  refine ⟨hf, hsource, hf ▸ hσ.fields, ?_, fun text => ⟨hσ.answer_solve text, ?_⟩⟩
  · cases hread : r.source.read with
    | error e => exact Fields.run_read_error (hsource ▸ hread)
    | ok g =>
      obtain ⟨-, s, hs, -⟩ := Source.exists_study hread
      exact ⟨s, hs, Fields.run_read_ok (hsource ▸ hread) hs⟩
  · obtain ⟨info, hinfo, hrun⟩ := run_solve σ text
    rw [hσ.answer_solve] at hinfo hrun
    refine ⟨info, hinfo, hf ▸ hrun.trans ?_⟩
    rw [Fields.answered, hinfo]

/-- A read that fails between two grammars leaves every field of the
first one. -/
example :
    (Fields.new (.lines ["S->a"])).serveAll [.read, .replace (.lines ["T->B"]), .read] =
      { (Fields.new (.lines ["S->a"])).serveAll [.read] with source := .lines ["T->B"] } := by
  decide +kernel

end Session

end Predictive
