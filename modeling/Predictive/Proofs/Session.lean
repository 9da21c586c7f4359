import Predictive.Proofs.Machine.Length
import Predictive.Session

/-!
# Sessions answer

A session serves requests one after another: its lines are replaced, or
read, or it is given a text. A request that fails leaves the session as
it was. Whatever it was asked before, the study it holds is that of a
grammar that was loaded (`isStudied_serveAll_new`), and so it answers
every text: it refuses, or it parses to the end.
-/

namespace Predictive

variable {g : Grammar} {s : Study}

theorem Source.exists_load {source : Source} (h : source.read = .ok g) :
    ∃ pairs, Grammar.load pairs = .ok g := by
  have hlines : ∀ lines, Grammar.ofLines lines = .ok g → ∃ pairs, Grammar.load pairs = .ok g := by
    intro lines h
    rw [Grammar.ofLines] at h
    cases hpairs : Grammar.readLines (Grammar.productionLines lines) with
    | error e => rw [hpairs] at h; cases h
    | ok pairs => rw [hpairs] at h; exact ⟨pairs, h⟩
  cases source with
  | text t => exact hlines _ h
  | lines l => exact hlines l h

theorem Source.exists_study {source : Source} (h : source.read = .ok g) :
    g.WellFormed ∧ ∃ s, g.study = .ok s ∧ s.IsOf g := by
  obtain ⟨pairs, hload⟩ := exists_load h
  have wf := Grammar.wellFormed_of_load hload
  exact ⟨wf, Grammar.exists_study wf⟩

namespace Session

variable {σ σ' : Session}

/-! ## Requests -/

/-- What a session can be asked. -/
inductive Request where
  | replace (source : Source)
  | read
  | solve (text : Text)

/-- The session after a request. Lines that cannot be read change
nothing. -/
def serve (σ : Session) : Request → Session
  | .replace source => σ.withSource source
  | .read =>
    match σ.read with
    | .ok σ' => σ'
    | .error _ => σ
  | .solve text => σ.solve text

/-- The session after requests, one after another. -/
def serveAll (σ : Session) (requests : List Request) : Session := requests.foldl serve σ

theorem outcome_reportRead (σ : Session) :
    σ.reportRead.outcome =
      σ.source.read.mapError .grammar >>= fun g => g.study.mapError .analysis := by
  simp only [reportRead, Grammar.reported, Reported.outcome_bind, Reported.outcome_mapError,
    Reported.outcome_noting, Grammar.outcome_reportStudy]

theorem read_eq_ok (h : σ.read = .ok σ') :
    ∃ g s, σ.source.read = .ok g ∧ g.study = .ok s ∧ σ' = { σ with study := some s } := by
  rw [read, outcome_reportRead] at h
  cases hread : σ.source.read with
  | error e =>
    rw [hread] at h
    cases h
  | ok g =>
    rw [hread] at h
    change (g.study.mapError Failure.analysis).map _ = _ at h
    cases hs : g.study with
    | error e =>
      rw [hs] at h
      cases h
    | ok s =>
      rw [hs] at h
      cases h
      exact ⟨g, s, rfl, hs, rfl⟩

theorem solve_source_study (σ : Session) (text : Text) :
    (σ.solve text).source = σ.source ∧ (σ.solve text).study = σ.study := by
  rw [solve]
  split
  · split <;> exact ⟨rfl, rfl⟩
  · exact ⟨rfl, rfl⟩

/-! ## What a session holds -/

/-- The study, if there is one, is that of a grammar that was loaded. -/
def IsStudied (σ : Session) : Prop :=
  ∀ s, σ.study = some s → ∃ pairs g, Grammar.load pairs = .ok g ∧ g.study = .ok s

theorem IsStudied.serve (h : σ.IsStudied) (request : Request) : (σ.serve request).IsStudied := by
  cases request with
  | replace source => exact h
  | read =>
    rw [Session.serve]
    split
    · next σ' hread =>
      obtain ⟨g, s, hsource, hs, rfl⟩ := read_eq_ok hread
      obtain ⟨pairs, hload⟩ := Source.exists_load hsource
      rintro s' ⟨⟩
      exact ⟨pairs, g, hload, hs⟩
    · exact h
  | solve text =>
    intro s hs
    exact h s ((σ.solve_source_study text).2 ▸ hs)

theorem IsStudied.serveAll (h : σ.IsStudied) (requests : List Request) :
    (σ.serveAll requests).IsStudied := by
  induction requests generalizing σ with
  | nil => exact h
  | cons request requests ih => exact ih (h.serve request)

theorem isStudied_serveAll_new (source : Source) (requests : List Request) :
    ((new source).serveAll requests).IsStudied :=
  IsStudied.serveAll (fun _ hs => by cases hs) requests

/-! ## Answers -/

/-- A session that holds the study of a loaded grammar answers every
text: it refuses, or comes to the end of the parse. -/
theorem IsStudied.answer_solve (h : σ.IsStudied) (text : Text) :
    (σ.isLL1 = false ∧ (σ.solve text).answer = .refused) ∨
      (σ.isLL1 ∧ ∃ run, (σ.solve text).answer = .parsed run ∧ run.ending ≠ .unfinished) := by
  rw [isLL1, solve]
  cases hstudy : σ.study with
  | none => exact Or.inl ⟨rfl, rfl⟩
  | some s =>
    obtain ⟨pairs, g, hload, hs⟩ := h s hstudy
    have wf := Grammar.wellFormed_of_load hload
    obtain ⟨s', hs', hof⟩ := Grammar.exists_study wf
    obtain rfl := Except.ok.inj (hs.symm.trans hs')
    rw [Option.any_some]
    show (s.isLL1 = false ∧ (ite s.isLL1 _ _ : Session).answer = _) ∨
      (s.isLL1 ∧ ∃ run, (ite s.isLL1 _ _ : Session).answer = _ ∧ _)
    cases hll1 : s.isLL1 with
    | false => exact Or.inl ⟨rfl, rfl⟩
    | true => exact Or.inr ⟨rfl, s.parse text, rfl, hof.ending_parse_ne_unfinished wf hll1 text⟩

/-- Parsing with an LL(1) grammar ends, for every text, after no more
steps than the text and the grammar allow; and so a session, whatever it
was asked before, answers every text. -/
theorem solve_ends :
    (∀ pairs g, Grammar.load pairs = .ok g → ∃ s, g.study = .ok s ∧
      (s.isLL1 → ∀ text L, (∀ p ∈ g.productions, p.rhs.length ≤ L) →
        (∃ k c, Config.Reaches s.table k (.initial g.start (symbolsOf (Text.unblank text))) c ∧
          c.next? s.table = none) ∧
        (s.parse text).ending ≠ .unfinished ∧
        (s.parse text).steps.length ≤ (Text.unblank text).length + 2 +
          L * g.nonterminals.length * ((Text.unblank text).length + 1))) ∧
    ∀ source requests text,
      (¬ ((new source).serveAll requests).isLL1 →
        (((new source).serveAll requests).solve text).answer = .refused) ∧
      (((new source).serveAll requests).isLL1 →
        ∃ run, (((new source).serveAll requests).solve text).answer = .parsed run ∧
          run.ending ≠ .unfinished) := by
  refine ⟨fun pairs g hload => ?_, fun source requests text => ?_⟩
  · have wf := Grammar.wellFormed_of_load hload
    obtain ⟨s, hs, hof⟩ := Grammar.exists_study wf
    refine ⟨s, hs, fun hll1 text L hL => ?_⟩
    obtain ⟨k, c, hreach, hend, -⟩ := hof.exists_reaches_end wf hll1 hL _
    obtain ⟨hending, hlength⟩ := hof.parse_ends wf hll1 hL text
    refine ⟨⟨k, c, hreach, hend⟩, hending, hlength.trans ?_⟩
    rw [Nat.mul_succ, ← Nat.mul_assoc]
    omega
  · rcases (isStudied_serveAll_new source requests).answer_solve text with ⟨hll1, h⟩ | ⟨hll1, h⟩
    · exact ⟨fun _ => h, fun hyes => by rw [hll1] at hyes; cases hyes⟩
    · exact ⟨fun hno => absurd hll1 hno, fun _ => h⟩

/-- A grammar with a first symbol that vanishes and a nonterminal that
is left-recursive, loaded and in a session. -/
theorem solve_ends_of_left_recursion :
    (∃ g s, Grammar.load [("S", ["Ab", "C"]), ("A", ["a", "ε"]), ("C", ["Cc"])] = .ok g ∧
      g.study = .ok s ∧ s.isLL1 ∧ (∀ p ∈ g.productions, p.rhs.length ≤ 2) ∧
      (s.parse "a b").ending ≠ .unfinished ∧ (s.parse "a b").steps.length ≤ 22) ∧
    ∃ σ, (new (.lines ["S->Ab|C", "A->a|ε", "C->Cc"])).serveAll [.solve "b", .read] = σ ∧ σ.isLL1 ∧
      ∃ run, (σ.solve "a b").answer = .parsed run ∧ run.ending ≠ .unfinished := by
  obtain ⟨hparse, hsession⟩ := solve_ends
  constructor
  · obtain ⟨g, h⟩ : ∃ g,
        Grammar.load [("S", ["Ab", "C"]), ("A", ["a", "ε"]), ("C", ["Cc"])] = .ok g := ⟨_, rfl⟩
    obtain ⟨s, hs, hlaw⟩ := hparse _ g h
    have hfacts : (s.isLL1, g.nonterminals.length,
        decide (∀ p ∈ g.productions, p.rhs.length ≤ 2)) = (true, 3, true) := by
      apply Grammar.computed_eq h hs
      decide +kernel
    simp only [Prod.mk.injEq] at hfacts
    obtain ⟨hll1, hsize, hwidth⟩ := hfacts
    have hL := of_decide_eq_true hwidth
    obtain ⟨-, hending, hlength⟩ := hlaw hll1 "a b" 2 hL
    rw [hsize] at hlength
    exact ⟨g, s, h, hs, hll1, hL, hending, hlength⟩
  · have hll1 : ((new (.lines ["S->Ab|C", "A->a|ε", "C->Cc"])).serveAll
        [.solve "b", .read]).isLL1 = true := by
      decide +kernel
    exact ⟨_, rfl, hll1, (hsession _ _ "a b").2 hll1⟩

end Session

end Predictive
