import Predictive.Proofs.Machine.Checked
import Predictive.Proofs.Session
import Predictive.Proofs.Sets.Settling

/-!
# Lines are no grammar, or nothing fails

Behind a grammar that was read nothing can go wrong. The passes for
FIRST and FOLLOW come to rest; every set that the rules for FOLLOW, the
search for conflicts and the table ask for is there, since every
nonterminal in use has a rule; no right-hand side is empty, so each has
the first symbol by which its columns are chosen; and no step of the
machine reads what is not there, whatever the text and however many
steps are made, also over a table with collisions, with which it may
never come to an end.
-/

namespace Predictive

namespace Grammar

/-- Lines, whatever they are, are refused as a grammar, or they are one
that can be studied and whose table drives the machine over every text
without a fault. -/
theorem error_or_total (lines : List Text) :
    (∃ e, ofLines lines = .error e) ∨
      ∃ g s, ofLines lines = .ok g ∧ g.study = .ok s ∧
        (∃ F, Saturation.Settles g.firstPass ∅ F ∧ s.first = F.restrict g.nonterminals) ∧
        (∃ rules F, FollowRule.ofProductions s.first.sets g.productions = .ok rules ∧
          Saturation.Settles (FollowRule.pass rules) (g.followSeed ∅) F ∧
          s.follow = F.restrict g.nonterminals) ∧
        g.conflicts s.first.sets s.follow.sets = .ok s.conflicts ∧
        g.table s.first.sets s.follow.sets false = .ok s.table ∧
        ∀ text n, Frame.run s.table n (.initial g.start (symbolsOf (Text.unblank text))) =
          .ok ((Config.initial g.start (symbolsOf (Text.unblank text))).run s.table n).steps := by
  cases hread : ofLines lines with
  | error e => exact Or.inl ⟨e, rfl⟩
  | ok g =>
    have hsource : (Source.lines lines).read = .ok g := hread
    obtain ⟨-, s, hs, hof⟩ := Source.exists_study hsource
    obtain ⟨F, hF, hfirst⟩ := exists_settles_first g ∅
    refine Or.inr ⟨g, s, rfl, hs, ⟨F, hF, hof.first.trans hfirst⟩,
      exists_settles_follow hof.follow, hof.conflicts, hof.table, fun text n => ?_⟩
    exact Frame.run_eq (Follows.initial _ _) n

/-- A grammar on whose table the machine goes on for ever. -/
theorem error_or_total_of_left_recursion :
    ∃ g s, ofLines ["S->Sa|b"] = .ok g ∧ g.study = .ok s ∧ s.isLL1 = false ∧
      ∃ steps, Frame.run s.table 50 (.initial g.start (symbolsOf (Text.unblank "b a"))) =
        .ok steps := by
  rcases error_or_total ["S->Sa|b"] with ⟨e, he⟩ | ⟨g, s, hread, hs, -, -, -, -, hrun⟩
  · have hok : (ofLines ["S->Sa|b"]).toOption.isSome = true := by decide +kernel
    rw [he] at hok
    cases hok
  · have hll1 : ((ofLines ["S->Sa|b"]).toOption.bind fun g => g.study.toOption.map Study.isLL1) =
        some false := by
      decide +kernel
    rw [hread, Except.toOption, Option.bind_some, hs] at hll1
    exact ⟨g, s, hread, hs, Option.some.inj hll1, _, hrun "b a" 50⟩

end Grammar

end Predictive
