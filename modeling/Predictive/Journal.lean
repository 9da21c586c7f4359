import Predictive.Grammar.Notation
import Predictive.Machine.Report
import Predictive.Study

/-!
# The journal

What the library tells about its work while it works: the size of a
grammar that was loaded, each pass of the set computations, each
conflict and the verdict, cells with several writers, and each input
that was rejected. A record has a level and comes from one part of the
library.

`Reported` pairs a result with the records written on the way to it, so
a computation that stops half-way still shows how far it came. Each
reported computation below has the result of the plain one.
-/

namespace Predictive

/-! ## Records -/

inductive Level where
  | debug
  | info
  | warning
deriving DecidableEq

/-- The part of the library that writes a record. -/
inductive Channel where
  | grammar
  | sets
  | checker
  | table
  | parser
deriving DecidableEq

structure Record where
  level : Level
  channel : Channel
  message : Text
deriving DecidableEq

def Level.name : Level → Text
  | debug => "DEBUG"
  | info => "INFO"
  | warning => "WARNING"

def Channel.name : Channel → Text
  | grammar => "ll1.grammar"
  | sets => "ll1.first_follow"
  | checker => "ll1.checker"
  | table => "ll1.table"
  | parser => "ll1.parser"

def Record.line (r : Record) : Text := r.level.name ++ " " ++ r.channel.name ++ ": " ++ r.message

/-! ## What is recorded -/

namespace Journal

def loaded (g : Grammar) : List Record :=
  [⟨.debug, .grammar, "loaded " ++ Text.ofNat g.size ++ " productions, start symbol " ++
    g.start.text⟩]

/-- A record for each pass of a set computation. -/
def passes (name : Text) (s : Saturation) : List Record :=
  s.totals.zipIdx.map fun (total, i) =>
    ⟨.debug, .sets, name ++ " pass " ++ Text.ofNat (i + 1) ++ ": " ++ Text.ofNat total ++
      " symbols"⟩

def verdict (conflicts : List Conflict) : List Record :=
  conflicts.map (fun c => ⟨.info, .checker, "LL(1) conflict: " ++ c.message⟩) ++
    [⟨.info, .checker,
      if conflicts.isEmpty then "grammar is LL(1)" else "grammar is not LL(1)"⟩]

/-- A record of the cells with several writers, when there are any. -/
def ambiguities (t : ParsingTable) : List Record :=
  let cells := t.collisions.length
  if cells = 0 then []
  else [⟨.warning, .table, "parsing table has " ++ Text.ofNat cells ++ " ambiguous cells"⟩]

def rejection (r : Run) : List Record :=
  match r.ending with
  | .rejected why =>
    [⟨.debug, .parser, "rejected at step " ++ Text.ofNat r.steps.length ++ ": " ++ why.message⟩]
  | _ => []

/-- The records of a study that came to its end. -/
def study (s : Study) : List Record :=
  passes "FIRST" s.first ++ passes "FOLLOW" s.follow ++ verdict s.conflicts ++ ambiguities s.table

end Journal

/-! ## Reported computations -/

/-- A result with the records written on the way to it. -/
structure Reported (ε α : Type) where
  records : List Record
  outcome : Except ε α

namespace Reported

variable {ε α β : Type}

/-- A result that nothing was written about. -/
def silent (outcome : Except ε α) : Reported ε α := ⟨[], outcome⟩

/-- A result with records that are written only when there is one. -/
def noting (outcome : Except ε α) (records : α → List Record) : Reported ε α :=
  match outcome with
  | .ok a => ⟨records a, .ok a⟩
  | .error e => ⟨[], .error e⟩

/-- A computation continued with its result; the records of both parts
follow each other. -/
def bind (r : Reported ε α) (f : α → Reported ε β) : Reported ε β :=
  match r.outcome with
  | .ok a => ⟨r.records ++ (f a).records, (f a).outcome⟩
  | .error e => ⟨r.records, .error e⟩

instance : Monad (Reported ε) where
  pure a := silent (.ok a)
  bind := bind

def mapError {ε' : Type} (f : ε → ε') (r : Reported ε α) : Reported ε' α :=
  ⟨r.records, match r.outcome with
    | .ok a => .ok a
    | .error e => .error (f e)⟩

theorem outcome_bind (r : Reported ε α) (f : α → Reported ε β) :
    (r >>= f).outcome = r.outcome >>= fun a => (f a).outcome := by
  show (bind r f).outcome = _
  unfold bind
  cases r.outcome <;> rfl

@[simp] theorem outcome_noting (outcome : Except ε α) (records : α → List Record) :
    (noting outcome records).outcome = outcome := by
  cases outcome <;> rfl

@[simp] theorem outcome_mapError {ε' : Type} (f : ε → ε') (r : Reported ε α) :
    (r.mapError f).outcome = r.outcome.mapError f := by
  unfold mapError
  cases r.outcome <;> rfl

@[simp] theorem outcome_pure (a : α) : (pure a : Reported ε α).outcome = .ok a := rfl

end Reported

/-- What stops the way from lines to a study. -/
inductive Failure where
  | grammar (e : GrammarError)
  | analysis (e : AnalysisError)
deriving DecidableEq

def Failure.message : Failure → Text
  | grammar e => e.message
  | analysis e => e.message

namespace Grammar

/-- A grammar read from anything, reported when it was read. -/
def reported (g : Except GrammarError Grammar) : Reported Failure Grammar :=
  (Reported.noting g Journal.loaded).mapError .grammar

def reportFirst (g : Grammar) (seed : SetMap) : Reported AnalysisError Saturation :=
  .noting (.ok (g.first seed)) (Journal.passes "FIRST")

def reportFollow (g : Grammar) (first seed : SetMap) : Reported AnalysisError Saturation :=
  .noting (g.follow first seed) (Journal.passes "FOLLOW")

def reportConflicts (g : Grammar) (first follow : SetMap) :
    Reported AnalysisError (List Conflict) :=
  .noting (g.conflicts first follow) Journal.verdict

def reportTable (g : Grammar) (first follow : SetMap) (strict : Bool) :
    Reported AnalysisError ParsingTable :=
  .noting (g.table first follow strict) Journal.ambiguities

def reportStudy (g : Grammar) : Reported AnalysisError Study := do
  let first ← g.reportFirst ∅
  let follow ← g.reportFollow first.sets ∅
  let conflicts ← g.reportConflicts first.sets follow.sets
  let table ← g.reportTable first.sets follow.sets false
  return ⟨g, first, follow, conflicts, table⟩

/-- Reporting changes nothing about a study. -/
theorem outcome_reportStudy (g : Grammar) : g.reportStudy.outcome = g.study := by
  simp [reportStudy, study, Reported.outcome_bind, reportFirst, reportFollow, reportConflicts,
    reportTable]
  rfl

end Grammar

end Predictive
