import Predictive.Proofs.Session
import Predictive.Service.Basic

/-!
# Outcomes of the service

What an endpoint comes to for a content. It goes on from step to step -
the lines, the input, the study - as long as each gives a result, so it
gives one exactly when all of them do (`exists_analyse_iff`,
`analyseInput_eq_ok`), and when it does not, a step has told the reason
(`IsReasoned`): a bound that is a whole number can be compared with any
count, and the study of a grammar that was read cannot fail.
-/

namespace Predictive

namespace Service

variable {s : Settings} {content : JsonValue} {lines : List Text} {input : Text} {n : Int}
  {α β : Type}

/-! ## Contents -/

theorem exists_members {name : Text} {v : JsonValue} (h : content.member? name = some v) :
    ∃ members, content = .object members := by
  cases content with
  | object members => exact ⟨members, rfl⟩
  | _ => cases h

theorem string?_eq_some {v : JsonValue} {t : Text} : v.string? = some t ↔ v = .string t := by
  cases v <;> simp [JsonValue.string?]

theorem mapM_string?_eq_some {l : List JsonValue} :
    l.mapM JsonValue.string? = some lines ↔ l = lines.map .string := by
  induction l generalizing lines with
  | nil => cases lines <;> simp
  | cons v l ih =>
    simp only [List.mapM_cons, Option.bind_eq_bind, Option.bind_eq_some_iff, string?_eq_some, ih,
      Option.pure_def, Option.some.injEq]
    constructor
    · rintro ⟨t, rfl, rest, rfl, rfl⟩
      rfl
    · intro h
      cases lines with
      | nil => cases h
      | cons t rest =>
        obtain ⟨rfl, rfl⟩ := List.cons.inj h
        exact ⟨t, rfl, rest, rfl, rfl⟩

/-- The content is an object that names production lines, as an array of
texts or as one text. -/
def Names (content : JsonValue) (lines : List Text) : Prop :=
  ∃ members, content = .object members ∧
    (content.member? "inpProductions" = some (.texts lines) ∨
      ∃ t, content.member? "inpProductions" = some (.string t) ∧ lines = Text.lines t)

theorem linesOf?_eq_some : linesOf? content = some lines ↔ Names content lines := by
  rw [linesOf?]
  constructor
  · intro h
    split at h
    · next t hmember =>
      obtain ⟨members, rfl⟩ := exists_members hmember
      exact ⟨members, rfl, Or.inr ⟨t, hmember, (Option.some.inj h).symm⟩⟩
    · next l hmember =>
      obtain ⟨members, rfl⟩ := exists_members hmember
      rw [mapM_string?_eq_some.1 h] at hmember
      exact ⟨members, rfl, Or.inl hmember⟩
    · cases h
  · rintro ⟨members, -, hmember | ⟨t, hmember, rfl⟩⟩
    · rw [hmember]
      exact mapM_string?_eq_some.2 rfl
    · rw [hmember]

/-! ## Refusals -/

/-- If it is refused, then with a reason. -/
def IsReasoned (outcome : Except Refusal α) : Prop := outcome ≠ .error .failed

theorem isReasoned_ok (a : α) : IsReasoned (.ok a) := by
  intro h
  cases h

theorem isReasoned_unfit (message : Text) :
    IsReasoned (.error (.unfit message) : Except Refusal α) := by
  intro h
  cases h

theorem IsReasoned.bind {x : Except Refusal α} {f : α → Except Refusal β} (hx : IsReasoned x)
    (hf : ∀ a, IsReasoned (f a)) : IsReasoned (x >>= f) := by
  cases x with
  | error e => exact fun h => hx (by cases h; rfl)
  | ok a => exact hf a

/-- A whole number is a bound to which every count can be held. -/
theorem checkBound_integer (n : Int) (count : Nat) (message : Text) :
    checkBound (.number (.integer n)) count message =
      if n < count then .error (.unfit message) else .ok () := by
  rw [checkBound]
  by_cases h : n < count
  · simp [Bound.isExceededBy?, JsonNumber.isExceededBy, h]
  · simp [Bound.isExceededBy?, JsonNumber.isExceededBy, h]

theorem checkBound_eq_ok {count : Nat} {message : Text} :
    checkBound (.number (.integer n)) count message = .ok () ↔ (count : Int) ≤ n := by
  rw [checkBound_integer]
  split
  · next h => simp [h]
  · next h => simp [Int.not_lt.1 h]

theorem isReasoned_checkBound {count : Nat} {message : Text} :
    IsReasoned (checkBound (.number (.integer n)) count message) := by
  rw [checkBound_integer]
  split
  · exact isReasoned_unfit message
  · exact isReasoned_ok ()

theorem readLines_eq_ok (hn : s.maxProductions = .number (.integer n)) :
    readLines s content = .ok lines ↔ Names content lines ∧ (lines.length : Int) ≤ n := by
  rw [readLines, hn, ← linesOf?_eq_some]
  cases linesOf? content with
  | none => exact ⟨nofun, fun h => nomatch h.1⟩
  | some lines' =>
    rw [Except.bind_eq_ok]
    constructor
    · rintro ⟨⟨⟩, hbound, hlines⟩
      cases hlines
      exact ⟨rfl, checkBound_eq_ok.1 hbound⟩
    · rintro ⟨hlines, hbound⟩
      cases hlines
      exact ⟨(), checkBound_eq_ok.2 hbound, rfl⟩

theorem isReasoned_readLines (hn : s.maxProductions = .number (.integer n)) :
    IsReasoned (readLines s content) := by
  rw [readLines, hn]
  cases linesOf? content with
  | none => exact isReasoned_unfit _
  | some lines => exact isReasoned_checkBound.bind fun _ => isReasoned_ok lines

theorem readInput_eq_ok (hn : s.maxInputLength = .number (.integer n)) :
    readInput s content = .ok input ↔
      content.member? "inpStr" = some (.string input) ∧ (input.length : Int) ≤ n := by
  rw [readInput, hn]
  split
  · next t hmember =>
    rw [hmember, Except.bind_eq_ok]
    constructor
    · rintro ⟨⟨⟩, hbound, hinput⟩
      cases hinput
      exact ⟨rfl, checkBound_eq_ok.1 hbound⟩
    · rintro ⟨hinput, hbound⟩
      cases hinput
      exact ⟨(), checkBound_eq_ok.2 hbound, rfl⟩
  · next hmember =>
    exact ⟨nofun, fun h => absurd h.1 (hmember input)⟩

theorem isReasoned_readInput (hn : s.maxInputLength = .number (.integer n)) :
    IsReasoned (readInput s content) := by
  rw [readInput, hn]
  split
  · exact isReasoned_checkBound.bind fun _ => isReasoned_ok _
  · exact isReasoned_unfit _

/-! ## Outcomes -/

theorem outcome_studyOf_eq_ok {study : Study} :
    (studyOf lines).outcome = .ok study ↔
      ∃ g, Grammar.ofLines lines = .ok g ∧ g.study = .ok study := by
  rw [studyOf, Reported.outcome_mapError, Session.outcome_reportRead]
  show (((Grammar.ofLines lines).mapError Failure.grammar >>= fun g =>
    g.study.mapError Failure.analysis).mapError refusalOf) = .ok study ↔ _
  cases Grammar.ofLines lines with
  | error e => exact ⟨nofun, fun ⟨_, h, _⟩ => nomatch h⟩
  | ok g =>
    show ((g.study.mapError Failure.analysis).mapError refusalOf) = .ok study ↔ _
    cases hs : g.study with
    | error e =>
      refine ⟨nofun, fun ⟨g', hg, hs'⟩ => ?_⟩
      cases hg
      rw [hs] at hs'
      cases hs'
    | ok study' =>
      refine ⟨fun h => ⟨g, rfl, hs.trans (by cases h; rfl)⟩, fun ⟨g', hg, hs'⟩ => ?_⟩
      cases hg
      rw [hs] at hs'
      cases hs'
      rfl

/-- Lines that are no grammar are refused with the reason, and no other
lines are. -/
theorem isReasoned_studyOf (lines : List Text) : IsReasoned (studyOf lines).outcome := by
  cases hread : Grammar.ofLines lines with
  | error e =>
    rw [studyOf, Reported.outcome_mapError, Session.outcome_reportRead]
    show IsReasoned (((Grammar.ofLines lines).mapError Failure.grammar >>= fun g =>
      g.study.mapError Failure.analysis).mapError refusalOf)
    rw [hread]
    exact isReasoned_unfit _
  | ok g =>
    have hsource : (Source.lines lines).read = .ok g := hread
    obtain ⟨-, study, hs, -⟩ := Source.exists_study hsource
    rw [outcome_studyOf_eq_ok.2 ⟨g, hread, hs⟩]
    exact isReasoned_ok study

theorem outcome_analyse (s : Settings) (content : JsonValue) :
    (analyse s content).outcome = readLines s content >>= fun lines =>
      (studyOf lines).outcome >>= fun study => .ok (studyJson study) := by
  simp only [analyse, Reported.outcome_bind]
  rfl

/-- The answer to an input under a study. -/
def answerOf (lines : List Text) (study : Study) (input : Text) : Answer :=
  (Session.solve ⟨.lines lines, some study, .none⟩ input).answer

theorem outcome_analyseInput (s : Settings) (content : JsonValue) :
    (analyseInput s content).outcome = readLines s content >>= fun lines =>
      readInput s content >>= fun input => (studyOf lines).outcome >>= fun study =>
        .ok (answerJson (answerOf lines study input)) := by
  simp only [analyseInput, Reported.outcome_bind, Reported.outcome_noting]
  rfl

variable {m : Int}

theorem isReasoned_analyse (hn : s.maxProductions = .number (.integer n)) :
    IsReasoned (analyse s content).outcome := by
  rw [outcome_analyse]
  exact (isReasoned_readLines hn).bind fun lines =>
    (isReasoned_studyOf lines).bind fun study => isReasoned_ok _

theorem isReasoned_analyseInput (hn : s.maxProductions = .number (.integer n))
    (hm : s.maxInputLength = .number (.integer m)) :
    IsReasoned (analyseInput s content).outcome := by
  rw [outcome_analyseInput]
  exact (isReasoned_readLines hn).bind fun lines => (isReasoned_readInput hm).bind fun input =>
    (isReasoned_studyOf lines).bind fun study => isReasoned_ok _

/-- The content names, within a bound, the lines of a grammar. -/
def NamesGrammar (n : Int) (content : JsonValue) : Prop :=
  ∃ lines, Names content lines ∧ (lines.length : Int) ≤ n ∧ ∃ g, Grammar.ofLines lines = .ok g

theorem exists_analyse_iff (hn : s.maxProductions = .number (.integer n)) :
    (∃ data, (analyse s content).outcome = .ok data) ↔ NamesGrammar n content := by
  rw [outcome_analyse]
  constructor
  · rintro ⟨data, hdata⟩
    obtain ⟨lines, hlines, hdata⟩ := Except.bind_eq_ok.1 hdata
    obtain ⟨study, hstudy, -⟩ := Except.bind_eq_ok.1 hdata
    obtain ⟨hnames, hbound⟩ := (readLines_eq_ok hn).1 hlines
    obtain ⟨g, hg, -⟩ := outcome_studyOf_eq_ok.1 hstudy
    exact ⟨lines, hnames, hbound, g, hg⟩
  · rintro ⟨lines, hnames, hbound, g, hg⟩
    have hsource : (Source.lines lines).read = .ok g := hg
    obtain ⟨-, study, hs, -⟩ := Source.exists_study hsource
    refine ⟨studyJson study, Except.bind_eq_ok.2 ⟨lines, (readLines_eq_ok hn).2 ⟨hnames, hbound⟩,
      Except.bind_eq_ok.2 ⟨study, outcome_studyOf_eq_ok.2 ⟨g, hg, hs⟩, rfl⟩⟩⟩

/-- An input is answered when the content names a grammar and holds an
input within its bound, and the answer is the one of a session. -/
theorem analyseInput_eq_ok (hn : s.maxProductions = .number (.integer n))
    (hm : s.maxInputLength = .number (.integer m)) {data : JsonValue} :
    (analyseInput s content).outcome = .ok data ↔
      ∃ lines g study input, Names content lines ∧ (lines.length : Int) ≤ n ∧
        Grammar.ofLines lines = .ok g ∧ g.study = .ok study ∧
        content.member? "inpStr" = some (.string input) ∧ (input.length : Int) ≤ m ∧
        data = answerJson (answerOf lines study input) := by
  rw [outcome_analyseInput]
  constructor
  · intro hdata
    obtain ⟨lines, hlines, hdata⟩ := Except.bind_eq_ok.1 hdata
    obtain ⟨input, hinput, hdata⟩ := Except.bind_eq_ok.1 hdata
    obtain ⟨study, hstudy, hdata⟩ := Except.bind_eq_ok.1 hdata
    obtain ⟨hnames, hbound⟩ := (readLines_eq_ok hn).1 hlines
    obtain ⟨hmember, hlength⟩ := (readInput_eq_ok hm).1 hinput
    obtain ⟨g, hg, hs⟩ := outcome_studyOf_eq_ok.1 hstudy
    exact ⟨lines, g, study, input, hnames, hbound, hg, hs, hmember, hlength,
      (Except.ok.inj hdata).symm⟩
  · rintro ⟨lines, g, study, input, hnames, hbound, hg, hs, hmember, hlength, rfl⟩
    exact Except.bind_eq_ok.2 ⟨lines, (readLines_eq_ok hn).2 ⟨hnames, hbound⟩,
      Except.bind_eq_ok.2 ⟨input, (readInput_eq_ok hm).2 ⟨hmember, hlength⟩,
        Except.bind_eq_ok.2 ⟨study, outcome_studyOf_eq_ok.2 ⟨g, hg, hs⟩, rfl⟩⟩⟩

end Service

end Predictive
