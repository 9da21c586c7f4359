import Mathlib
import Predictive.Proofs.Service.Outcomes
import Predictive.Proofs.Tree.Flat

/-!
# Answers of the service

A posted content is answered by the outcome that an endpoint comes to
for it. `draft` is the response that an outcome makes before it is
encoded: the data with 200, or the reason of a refusal with 400, and
nothing else, since an outcome for a content that was read is always
one of the two (`IsReasoned.status_draft`). What is sent is the draft,
provided that it can be encoded (`isSent_answer`).

The answer to an input shows one outcome in several ways: a flag, the
message, the tree, its graph, and four columns of steps. They agree,
since all of them are read off one run, or off none when the grammar is
not LL(1) (`IsCoherent`). The tree of an accepted input is shown as a
list of nodes, whose leaves spell the input (`leavesText_treeJson`).
-/

namespace Predictive

theorem Report.message_eq_success_iff (r : Report) : r.message = "Success!" ↔ r.accepted := by
  have hother : ∀ reason top lookahead,
      Rejection.messageFor reason top lookahead ≠ ("Success!" : Text) := by
    intro reason top lookahead h
    -- every message of a rejection begins with a small letter
    have hhead := congrArg List.head? h
    have hne : CodePoint.char 'e' ≠ .char 'S' := by decide
    rw [Rejection.messageFor] at hhead
    split at hhead
    · exact hne (Option.some.inj hhead)
    · split at hhead
      · exact hne (Option.some.inj hhead)
      · exact hne (Option.some.inj hhead)
  rw [message]
  split
  · next haccepted => exact ⟨fun _ => haccepted, fun _ => rfl⟩
  · next hrejected => exact ⟨fun h => absurd h (hother _ _ _), fun h => absurd h hrejected⟩

theorem Tree.dot_ne_nil (t : Tree) : t.dot ≠ [] := by
  intro h
  have hhead : t.dot.head? = some (.char '/') := rfl
  rw [h] at hhead
  cases hhead

namespace Service

/-! ## Trees -/

/-- What a node of a shown tree adds to the text of the leaves: its
symbol, unless it has children or is the empty word. -/
def leafText (node : JsonValue) : Text :=
  match node.member? "children", node.member? "symbol" with
  | some (.array []), some (.string symbol) => if symbol = "ε" then [] else symbol
  | _, _ => []

/-- The text of the leaves of a shown tree, in the order in which it
lists them. -/
def leavesText (tree : JsonValue) : Text :=
  match tree.member? "nodes" with
  | some (.array nodes) => nodes.flatMap leafText
  | _ => []

theorem leafText_nodeJson (n : FlatNode) :
    leafText (nodeJson n) =
      if n.children.isEmpty && n.symbol != .epsilon then n.symbol.text else [] := by
  obtain ⟨id, ⟨symbol⟩, b, children⟩ := n
  have hε : (⟨symbol⟩ : Symbol) = .epsilon ↔ symbol = "ε" := by
    rw [Symbol.epsilon, Symbol.single, Symbol.mk.injEq]
    rfl
  cases children with
  | nil =>
    show (if symbol = "ε" then [] else symbol) =
      if (⟨symbol⟩ : Symbol) != .epsilon then symbol else []
    by_cases h : symbol = "ε"
    · rw [if_pos h, hε.2 h]
      rfl
    · rw [if_neg h, if_pos (bne_iff_ne.2 fun heq => h (hε.1 heq))]
  | cons i children => rfl

theorem flatMap_ite_eq_spell {α : Type} (f : α → Symbol) (p q : α → Bool) (l : List α) :
    l.flatMap (fun a => if p a && q a then (f a).text else []) =
      spell (((l.filter p).filter q).map f) := by
  induction l with
  | nil => rfl
  | cons a l ih =>
    rw [List.flatMap_cons, ih]
    cases hp : p a <;> cases hq : q a <;> simp [hp, hq]

theorem leavesText_treeJson (t : Tree) : leavesText (treeJson t) = t.text := by
  have hleaves : (t.flat.map nodeJson).flatMap leafText =
      spell (((t.flat.filter (·.children.isEmpty)).filter (·.symbol != .epsilon)).map
        FlatNode.symbol) := by
    rw [List.flatMap_map, ← flatMap_ite_eq_spell]
    exact List.flatMap_congr fun n _ => leafText_nodeJson n
  have hε : ∀ u : Tree, (!u.isEpsilon) = (u.symbol != .epsilon) := fun u => rfl
  calc leavesText (treeJson t) = (t.flat.map nodeJson).flatMap leafText := rfl
    _ = spell (((t.flat.filter (·.children.isEmpty)).map FlatNode.symbol).filter
        (· != .epsilon)) := by rw [hleaves, List.filter_map]; rfl
    _ = spell ((t.leaves.map Tree.symbol).filter (· != .epsilon)) := by
      rw [Tree.symbol_leaves_flat]
    _ = t.text := by rw [Tree.text, List.filter_map]; rfl

/-! ## Shown answers -/

/-- The members that show the answer to an input agree with each other
about whether it was accepted, and with the input. -/
structure IsCoherent (input : Text) (data : JsonValue) (accepted : Bool) : Prop where
  outcome : data.member? "accepted" = some (.bool accepted)
  verdict : ∃ t, data.member? "info_res" = some (.string t) ∧ (accepted = true ↔ t = "Success!")
  tree : ∃ v, data.member? "tree" = some v ∧ (accepted = true ↔ v ≠ .null)
  graph : ∃ t, data.member? "tree_dot_str" = some (.string t) ∧ (accepted = true ↔ t ≠ [])
  columns : ∃ k, ∀ name ∈ (["info_step", "info_stack", "info_str", "info_msg"] : List Text),
    ∃ l, data.member? name = some (.array l) ∧ l.length = k
  /-- The nodes of the tree are listed in preorder, and its leaves spell
  the input without blanks. -/
  leaves : accepted = true → ∃ t : Tree, data.member? "tree" = some (treeJson t) ∧
    t.flat.map FlatNode.symbol = t.preorder.map Tree.symbol ∧
    leavesText (treeJson t) = Text.unblank input

theorem isCoherent_refused (input : Text) : IsCoherent input (answerJson .refused) false where
  outcome := rfl
  verdict := ⟨_, rfl, by decide⟩
  tree := ⟨.null, rfl, by simp⟩
  graph := ⟨[], rfl, by simp⟩
  columns := ⟨0, by
    simp only [List.forall_mem_cons]
    exact ⟨⟨[], rfl, rfl⟩, ⟨[], rfl, rfl⟩, ⟨[], rfl, rfl⟩, ⟨[], rfl, rfl⟩, nofun⟩⟩
  leaves := nofun

theorem isCoherent_parsed {study : Study} {g : Grammar} (wf : g.WellFormed) (hof : study.IsOf g)
    (input : Text) :
    IsCoherent input (answerJson (.parsed (study.parse input)))
      (study.parse input).isAccepted where
  outcome := rfl
  verdict := ⟨_, rfl, (Report.message_eq_success_iff (study.parse input).report).symm⟩
  tree := by
    refine ⟨((study.parse input).tree?.map treeJson).getD .null, rfl, ?_⟩
    rw [Run.tree?]
    cases (study.parse input).isAccepted with
    | true => exact ⟨fun _ hnull => JsonValue.noConfusion hnull, fun _ => rfl⟩
    | false => exact ⟨fun h => absurd h Bool.false_ne_true, fun h => absurd rfl h⟩
  graph := by
    refine ⟨((study.parse input).tree?.map Tree.dot).getD [], rfl, ?_⟩
    rw [Run.tree?]
    cases (study.parse input).isAccepted with
    | true => exact ⟨fun _ => Tree.dot_ne_nil _, fun _ => rfl⟩
    | false => exact ⟨fun h => absurd h Bool.false_ne_true, fun h => absurd rfl h⟩
  columns := by
    refine ⟨(study.parse input).steps.length, ?_⟩
    simp only [List.forall_mem_cons]
    exact ⟨⟨_, rfl, by simp⟩, ⟨_, rfl, by simp⟩, ⟨_, rfl, by simp⟩, ⟨_, rfl, by simp⟩,
      List.forall_mem_nil _⟩
  leaves haccept := by
    obtain ⟨tree, htree, -, -, hword⟩ := hof.exists_tree wf haccept
    refine ⟨tree, ?_, tree.symbol_flat, ?_⟩
    · show some (((study.parse input).tree?.map treeJson).getD .null) = _
      rw [htree]
      rfl
    · rw [leavesText_treeJson, Tree.text_eq_spell_word, hword, spell_symbolsOf]

/-- The answer under the study of a grammar comes from a parse that ended,
or from none, and what is shown of it is coherent. -/
theorem answerOf_isCoherent {lines : List Text} {g : Grammar} {study : Study}
    (hg : Grammar.ofLines lines = .ok g) (hs : g.study = .ok study) (input : Text) :
    (∀ run, answerOf lines study input = .parsed run → run.ending ≠ .unfinished) ∧
      ∃ accepted, IsCoherent input (answerJson (answerOf lines study input)) accepted := by
  have hsource : (Source.lines lines).read = .ok g := hg
  obtain ⟨wf, study', hs', hof⟩ := Source.exists_study hsource
  obtain rfl := Except.ok.inj (hs.symm.trans hs')
  have hanswer : answerOf lines study input =
      if study.isLL1 then .parsed (study.parse input) else .refused :=
    apply_ite Session.answer _ _ _
  rw [hanswer]
  cases hll1 : study.isLL1 with
  | false => exact ⟨nofun, false, isCoherent_refused input⟩
  | true =>
    refine ⟨fun run hrun => ?_, _, isCoherent_parsed wf hof input⟩
    obtain rfl := Answer.parsed.inj hrun
    exact hof.ending_parse_ne_unfinished wf hll1 input

/-! ## Drafts -/

/-- The response that an outcome makes, not yet encoded. -/
def draft : Except Refusal JsonValue → Response
  | .ok data => .json 200 (.object [("code", .ofNat 0), ("data", data)])
  | .error (.unfit text) => .message 400 1 text
  | .error .failed => .failed

theorem ofOutcome_eq_encodable (outcome : Except Refusal JsonValue) :
    Response.ofOutcome outcome = (draft outcome).encodable := by
  rcases outcome with (text | _) | data
  · rfl
  · rw [draft, Response.encodable, ite_self]
    rfl
  · rfl

theorem status_draft_eq_ok_iff {outcome : Except Refusal JsonValue} :
    (draft outcome).status = 200 ↔ ∃ data, outcome = .ok data := by
  rcases outcome with (text | _) | data
  · exact ⟨fun h => absurd h (by decide : ¬ 400 = 200), nofun⟩
  · exact ⟨fun h => absurd h (by decide : ¬ 500 = 200), nofun⟩
  · exact ⟨fun _ => ⟨data, rfl⟩, fun _ => rfl⟩

theorem IsReasoned.status_draft {outcome : Except Refusal JsonValue} (h : IsReasoned outcome) :
    (draft outcome).status = 200 ∨ (draft outcome).status = 400 := by
  rcases outcome with (text | _) | data
  · exact Or.inr rfl
  · exact absurd rfl h
  · exact Or.inl rfl

/-- The answer is the one that was drafted, if that can be encoded. -/
def IsSent (drafted sent : Response) : Prop :=
  (drafted.body.getD .null).isEncodable → sent.status = drafted.status ∧ sent.body = drafted.body

variable {s : Settings} {content : JsonValue} {counts : Counts} {r : Request} {e : Endpoint}

/-- A request to an endpoint of the analysis is answered by the outcome
for its content, when requests are not counted. -/
theorem isSent_answer (hoff : s.isLimiting = false) (hpost : r.method = "POST")
    (htarget : r.target = e.path) (hcontent : r.content? = some content)
    {outcome : Except Refusal JsonValue}
    (hrespond : (respond s e (some content)).2 = .ofOutcome outcome) (he : e ≠ .test) :
    IsSent (draft outcome) (answer s counts r).2.2 := by
  intro hencode
  have hroute : Route.of r.method r.target = .endpoint e := by
    rw [hpost, htarget]
    cases e with
    | test => exact absurd rfl he
    | analysis => decide +kernel
    | inputAnalysis => decide +kernel
  have hoptions : r.isMethod "OPTIONS" = false := by
    rw [Request.isMethod, hpost]
    decide
  have hhead : r.isMethod "HEAD" = false := by
    rw [Request.isMethod, hpost]
    decide
  have hadmit : admit? s counts e r = some ⟨counts, .admitted, none⟩ := by
    rw [admit?, hoff]
    rfl
  have hrespondTo : (respondTo s e r).2 = draft outcome := by
    rw [respondTo, hoptions, hcontent, if_neg Bool.false_ne_true, hrespond, ofOutcome_eq_encodable]
    exact if_pos hencode
  have hserve : (serve s counts e r).2.2 =
      { draft outcome with standing := if s.showsStanding then none else none } := by
    rw [serve, hadmit, ← hrespondTo]
  have hanswer : (answer s counts r).2.2 =
      { (serve s counts e r).2.2 with allowedOrigin := r.allowedOrigin } := by
    simp only [answer, hroute, hhead]
    rfl
  rw [hanswer, hserve]
  exact ⟨rfl, rfl⟩

variable {n m : Int}

/-- Where requests are not counted and the bounds are whole numbers, a
posted content is answered with 200 or 400, as far as the answer can be
encoded. A grammar is analysed exactly when the content names, within the
bound, lines that are one; an input is answered exactly when the content
also holds an input within its bound. The answer to an input comes from a
parse that ended, or from none, and its parts agree with each other. -/
theorem answers_coherent (counts : Counts) (hoff : s.isLimiting = false)
    (hn : s.maxProductions = .number (.integer n)) (hm : s.maxInputLength = .number (.integer m))
    (hpost : r.method = "POST") (hcontent : r.content? = some content) :
    (r.target = Endpoint.analysis.path →
      let drafted := draft (analyse s content).outcome
      IsSent drafted (answer s counts r).2.2 ∧ (drafted.status = 200 ∨ drafted.status = 400) ∧
        (drafted.status = 200 ↔ NamesGrammar n content)) ∧
    (r.target = Endpoint.inputAnalysis.path →
      let drafted := draft (analyseInput s content).outcome
      IsSent drafted (answer s counts r).2.2 ∧ (drafted.status = 200 ∨ drafted.status = 400) ∧
        (drafted.status = 200 ↔ NamesGrammar n content ∧
          ∃ input, content.member? "inpStr" = some (.string input) ∧ (input.length : Int) ≤ m) ∧
        (drafted.status = 200 → ∃ a input accepted,
          drafted.body = some (.object [("code", .ofNat 0), ("data", answerJson a)]) ∧
          content.member? "inpStr" = some (.string input) ∧
          (∀ run, a = .parsed run → run.ending ≠ .unfinished) ∧
          IsCoherent input (answerJson a) accepted)) := by
  refine ⟨fun htarget => ⟨isSent_answer hoff hpost htarget hcontent rfl nofun,
    (isReasoned_analyse hn).status_draft, status_draft_eq_ok_iff.trans (exists_analyse_iff hn)⟩,
    fun htarget => ⟨isSent_answer hoff hpost htarget hcontent rfl nofun,
    (isReasoned_analyseInput hn hm).status_draft, ?_, fun hstatus => ?_⟩⟩
  · rw [status_draft_eq_ok_iff]
    constructor
    · rintro ⟨data, hdata⟩
      obtain ⟨lines, g, study, input, hnames, hbound, hg, -, hmember, hlength, -⟩ :=
        (analyseInput_eq_ok hn hm).1 hdata
      exact ⟨⟨lines, hnames, hbound, g, hg⟩, input, hmember, hlength⟩
    · rintro ⟨⟨lines, hnames, hbound, g, hg⟩, input, hmember, hlength⟩
      have hsource : (Source.lines lines).read = .ok g := hg
      obtain ⟨-, study, hs, -⟩ := Source.exists_study hsource
      exact ⟨_, (analyseInput_eq_ok hn hm).2
        ⟨lines, g, study, input, hnames, hbound, hg, hs, hmember, hlength, rfl⟩⟩
  · obtain ⟨data, hdata⟩ := status_draft_eq_ok_iff.1 hstatus
    obtain ⟨lines, g, study, input, -, -, hg, hs, hmember, -, rfl⟩ :=
      (analyseInput_eq_ok hn hm).1 hdata
    obtain ⟨hended, accepted, hcoherent⟩ := answerOf_isCoherent hg hs input
    exact ⟨answerOf lines study input, input, accepted, by rw [hdata]; rfl, hmember, hended,
      hcoherent⟩

/-- An input that is accepted, posted to a service with the bounds that
it has by default. -/
theorem answers_coherent_of_defaults :
    ∃ (s : Settings) (r : Request) (content : JsonValue) (a : Answer),
      Settings.make [] [("RATELIMIT_ENABLED", .bool false)] = .ok s ∧ s.isLimiting = false ∧
      s.maxProductions = .number (.integer 200) ∧ s.maxInputLength = .number (.integer 2000) ∧
      r.method = "POST" ∧ r.target = Endpoint.inputAnalysis.path ∧ r.content? = some content ∧
      (answer s ∅ r).2.2.status = 200 ∧ IsCoherent " a b" (answerJson a) true := by
  let s : Settings :=
    ⟨false, true, some [⟨1000, 1, .minute⟩], .number (.integer 200), .number (.integer 2000)⟩
  let text : String := "\x7b\"inpProductions\": [\"S->aS|b\"], \"inpStr\": \" a b\"\x7d"
  let r : Request := ⟨"POST", Endpoint.inputAnalysis.path, [], "127.0.0.1", "application/json",
    text.toList.map fun c => c.toNat.toUInt8⟩
  let content : JsonValue :=
    .object [("inpProductions", .texts ["S->aS|b"]), ("inpStr", .string " a b")]
  have hmake : Settings.make [] [("RATELIMIT_ENABLED", .bool false)] = .ok s := by
    have hoption : (Settings.make [] [("RATELIMIT_ENABLED", .bool false)]).toOption = some s := by
      decide +kernel
    cases h : Settings.make [] [("RATELIMIT_ENABLED", .bool false)] with
    | error e =>
      rw [h] at hoption
      cases hoption
    | ok s' =>
      rw [h] at hoption
      rw [Option.some.inj hoption]
  have hcontent : r.content? = some content := by cbv
  obtain ⟨hsent, -, hiff, hcoherent⟩ :=
    (answers_coherent (s := s) ∅ rfl rfl rfl rfl hcontent).2 rfl
  have hstatus : (draft (analyseInput s content).outcome).status = 200 := by
    obtain ⟨g, hg⟩ : ∃ g, Grammar.ofLines ["S->aS|b"] = .ok g := ⟨_, rfl⟩
    exact hiff.2 ⟨⟨["S->aS|b"], ⟨_, rfl, Or.inl rfl⟩, by decide, g, hg⟩, " a b", rfl, by decide⟩
  have hfacts : (((draft (analyseInput s content).outcome).body.getD .null).isEncodable,
      (((draft (analyseInput s content).outcome).body.bind (JsonValue.member? "data")).bind
        (JsonValue.member? "accepted")).any JsonValue.isTruthy) = (true, true) := by
    decide +kernel
  obtain ⟨hencode, haccepted⟩ := Prod.mk.inj hfacts
  obtain ⟨a, input, accepted, hbody, hinput, -, hcoherent⟩ := hcoherent hstatus
  obtain rfl : " a b" = input := JsonValue.string.inj (Option.some.inj hinput)
  have hflag : accepted = true := by
    have hmember : ((JsonValue.object [("code", .ofNat 0), ("data", answerJson a)]).member?
        "data") = some (answerJson a) := rfl
    rw [hbody, Option.bind_some, hmember, Option.bind_some, hcoherent.outcome] at haccepted
    exact haccepted
  exact ⟨s, r, content, a, hmake, rfl, rfl, rfl, rfl, rfl, hcontent,
    (hsent hencode).1.trans hstatus, hflag ▸ hcoherent⟩

end Service

end Predictive
