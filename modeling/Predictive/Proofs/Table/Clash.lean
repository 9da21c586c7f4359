import Predictive.Proofs.Table.Claims

/-!
# The first clash

Filling a table strictly and filling it leniently make the same claims
in the same order (`table_eq_claimAll`), so the two agree until a strict
claim is refused. Up to there no cell has two writers, and the claim
that is refused is the first that would give a cell a second one
(`claimAll_strict`).

Filling leniently goes on, but what it writes later only comes behind:
the writers of a cell stay, in their places
(`writersAt_prefix_grantAll`). So the cell of the first clash is a
collision of the lenient table, the two productions that clash are its
first two writers, and no other collision had its second writer
earlier (`first_clash`). Where there is no collision the two tables are
one (`table_strict_eq`).
-/

namespace Predictive

variable {t : ParsingTable} {first follow : SetMap}

namespace ParsingTable

/-! ## Claims in a row -/

/-- The table after claims, all strict or all lenient; the first that
is refused ends it. -/
def claimAll (strict : Bool) (t : ParsingTable) (cs : List Claim) :
    Except AnalysisError ParsingTable :=
  cs.foldlM (fun t c => t.claim c strict) t

theorem claimAll_cons (strict : Bool) (t : ParsingTable) (c : Claim) (cs : List Claim) :
    t.claimAll strict (c :: cs) =
      (c.refusal? strict (t.writersAt c.place)).elim ((t.grant c).claimAll strict cs) .error := by
  rw [claimAll, List.foldlM_cons, claim_eq]
  cases c.refusal? strict (t.writersAt c.place) <;> rfl

theorem claimAll_lenient (t : ParsingTable) (cs : List Claim) :
    t.claimAll false cs = .ok (t.grantAll cs) := by
  induction cs generalizing t with
  | nil => rfl
  | cons c cs ih =>
    rw [claimAll_cons, c.refusal?_lenient]
    exact ih (t.grant c)

end ParsingTable

/-- The claims of a production, in the order in which they are made. -/
def Production.claims (f n : Symbol → SymbolSet) (p : Production) : List Claim :=
  (p.columns f n).map fun a => ⟨⟨p.lhs, a⟩, p⟩

/-- The claims that fill the table of a grammar. -/
def Grammar.claims (g : Grammar) (first follow : SetMap) : List Claim :=
  g.productions.flatMap (Production.claims first.find follow.find)

namespace ParsingTable

theorem writeAll_eq_claimAll (t : ParsingTable) (A : Symbol) (p : Production) (strict : Bool)
    (columns : List Symbol) :
    t.writeAll A p strict columns = t.claimAll strict (columns.map fun a => ⟨⟨A, a⟩, p⟩) := by
  induction columns generalizing t with
  | nil => rfl
  | cons a columns ih =>
    rw [writeAll, List.map_cons, claimAll, List.foldlM_cons]
    exact congrArg _ (funext ih)

theorem fill_eq_claimAll {ps : List Production}
    (h : ∀ p ∈ ps, p.predicted first follow = .ok (p.columns first.find follow.find))
    (strict : Bool) (t : ParsingTable) :
    t.fill first follow strict ps =
      t.claimAll strict (ps.flatMap (Production.claims first.find follow.find)) := by
  induction ps generalizing t with
  | nil => rfl
  | cons p ps ih =>
    rw [fill, h p (List.mem_cons_self ..), List.flatMap_cons, claimAll, List.foldlM_append,
      ← claimAll, Production.claims, ← writeAll_eq_claimAll]
    exact congrArg _ (funext (ih fun q hq => h q (List.mem_cons_of_mem _ hq)))

/-! ## Writers stay in their places -/

theorem writersAt_prefix_grant (t : ParsingTable) (c : Claim) (place : Place) :
    t.writersAt place <+: (t.grant c).writersAt place := by
  rw [writersAt_grant]
  split
  · next h =>
    rw [h]
    split
    · exact List.prefix_rfl
    · exact List.prefix_append ..
  · exact List.prefix_rfl

theorem writersAt_prefix_grantAll (t : ParsingTable) (cs : List Claim) (place : Place) :
    t.writersAt place <+: (t.grantAll cs).writersAt place := by
  induction cs generalizing t with
  | nil => exact List.prefix_rfl
  | cons c cs ih => exact (t.writersAt_prefix_grant c place).trans (ih (t.grant c))

/-! ## Until the first clash -/

theorem uncontested_blank (nonterminals terminals : List Symbol) :
    (blank nonterminals terminals).Uncontested := fun _ _ => Nat.zero_le 1

theorem Uncontested.grant (h : t.Uncontested) {c : Claim}
    (hc : c.refusal? true (t.writersAt c.place) = none) : (t.grant c).Uncontested := by
  intro A a
  show ((t.grant c).writersAt ⟨A, a⟩).length ≤ 1
  rw [writersAt_grant]
  split
  · split
    · exact h _ _
    · next hnew =>
      -- a strict claim is granted to a new production only in an empty cell
      have hnil : t.writersAt c.place = [] := by
        by_contra hne
        have hsome := Claim.refusal?_isSome.2 ⟨rfl, hne, hnew⟩
        rw [hc] at hsome
        cases hsome
      rw [hnil]
      exact Nat.le_refl 1
  · exact h A a

/-- After the claims of `before` no cell has two writers, and a claim
comes to a cell that `p` alone has written to. -/
structure Clash (t : ParsingTable) (before : List Claim) (c : Claim) (p : Production) : Prop where
  uncontested : (t.grantAll before).Uncontested
  writers : (t.grantAll before).writersAt c.place = [p]
  ne : c.production ≠ p

/-- Strict claims on a table without collisions are all granted and
leave none, or they are granted up to the first that clashes. -/
theorem claimAll_strict (h : t.Uncontested) (cs : List Claim) :
    (t.claimAll true cs = .ok (t.grantAll cs) ∧ (t.grantAll cs).Uncontested) ∨
      ∃ before c after p, cs = before ++ c :: after ∧ t.Clash before c p ∧
        t.claimAll true cs = .error (.contested c.place.row c.place.column p c.production) := by
  induction cs generalizing t with
  | nil => exact Or.inl ⟨rfl, h⟩
  | cons c cs ih =>
    rw [claimAll_cons]
    cases hc : c.refusal? true (t.writersAt c.place) with
    | none =>
      rcases ih (h.grant hc) with hall | ⟨before, d, after, p, rfl, hclash, herror⟩
      · exact Or.inl hall
      · exact Or.inr ⟨c :: before, d, after, p, rfl, ⟨hclash.1, hclash.2, hclash.3⟩, herror⟩
    | some e =>
      obtain ⟨-, hnil, hnew⟩ := Claim.refusal?_isSome.1 (Option.isSome_of_mem hc)
      obtain ⟨p, hp⟩ : ∃ p, t.writersAt c.place = [p] :=
        List.length_eq_one_iff.1 (Nat.le_antisymm (h _ _) (List.length_pos_of_ne_nil hnil))
      rw [hp] at hc hnew
      rw [Claim.refusal?, if_pos ⟨rfl, hnew⟩] at hc
      exact Or.inr ⟨[], c, cs, p, rfl, ⟨h, hp, fun he => hnew (List.mem_singleton.2 he)⟩,
        congrArg Except.error (Option.some.inj hc).symm⟩

namespace Clash

variable {before after : List Claim} {c : Claim} {p : Production}

/-- The two that clash are the first writers of their cell, whatever
comes later. -/
theorem writers_prefix (h : t.Clash before c p) (after : List Claim) :
    [p, c.production] <+: (t.grantAll (before ++ c :: after)).writersAt c.place := by
  have hsecond : ((t.grantAll before).grant c).writersAt c.place = [p, c.production] := by
    rw [writersAt_grant, if_pos rfl, h.writers, if_neg (by simpa using h.ne)]
    rfl
  rw [grantAll_append, ← hsecond]
  exact writersAt_prefix_grantAll _ after c.place

theorem mem_collisions (h : t.Clash before c p) (after : List Claim) :
    ∃ rest, (c.place, p :: c.production :: rest) ∈
      (t.grantAll (before ++ c :: after)).collisions := by
  obtain ⟨rest, hws⟩ := h.writers_prefix after
  exact ⟨rest, ParsingTable.mem_collisions.2 ⟨hws, Nat.succ_lt_succ (Nat.succ_pos _)⟩⟩

/-- Who comes second to a cell of a table did not come before the
clash. -/
theorem second_not_mem {rows columns : List Symbol}
    (h : (blank rows columns).Clash before c p) {place : Place} {p' q' : Production}
    {rest : List Production}
    (hws : ((blank rows columns).grantAll (before ++ c :: after)).writersAt place =
      p' :: q' :: rest) : ⟨place, q'⟩ ∉ before := by
  intro hmem
  have hrecords := Records.grantAll_blank rows columns
  have hwriter : q' ∈ ((blank rows columns).grantAll before).writersAt place :=
    (hrecords before).mem_writers.2 (Claim.mem_productionsAt.2 hmem)
  -- it was the only writer then, so it is the first
  obtain ⟨p₁, hp₁⟩ : ∃ p, ((blank rows columns).grantAll before).writersAt place = [p] :=
    List.length_eq_one_iff.1
      (Nat.le_antisymm (h.uncontested _ _) (List.length_pos_of_mem hwriter))
  rw [hp₁, List.mem_singleton] at hwriter
  have hprefix :=
    writersAt_prefix_grantAll ((blank rows columns).grantAll before) (c :: after) place
  rw [← grantAll_append, hws, hp₁, ← hwriter, List.cons_prefix_cons] at hprefix
  have hnodup := (hrecords (before ++ c :: after)).nodup_writers place
  rw [hws, ← hprefix.1] at hnodup
  exact (List.nodup_cons.1 hnodup).1 (List.mem_cons_self ..)

end Clash

end ParsingTable

namespace Grammar

variable {pairs : List (Text × List Text)} {g : Grammar}

theorem table_eq_claimAll (wf : g.WellFormed) (hfirst : ∀ A ∈ g.nonterminals, A ∈ first.keys)
    (hfollow : ∀ A ∈ g.nonterminals, A ∈ follow.keys) (strict : Bool) :
    g.table first follow strict =
      (ParsingTable.blank g.nonterminals g.terminals).claimAll strict (g.claims first follow) :=
  ParsingTable.fill_eq_claimAll (fun _ mem => wf.predicted_eq mem hfirst hfollow) strict _

/-- Where filling leniently leaves no collision, filling strictly gives
the same table. -/
theorem table_strict_eq (wf : g.WellFormed) (hfirst : ∀ A ∈ g.nonterminals, A ∈ first.keys)
    (hfollow : ∀ A ∈ g.nonterminals, A ∈ follow.keys) (h : g.table first follow false = .ok t)
    (hcollisions : t.collisions = []) : g.table first follow true = .ok t := by
  rw [table_eq_claimAll wf hfirst hfollow, ParsingTable.claimAll_lenient] at h
  obtain rfl := Except.ok.inj h
  rw [table_eq_claimAll wf hfirst hfollow]
  rcases ParsingTable.claimAll_strict (ParsingTable.uncontested_blank g.nonterminals g.terminals)
    (g.claims first follow) with ⟨hok, -⟩ | ⟨before, c, after, p, hsplit, hclash, -⟩
  · exact hok
  · have hmem := hclash.mem_collisions after
    rw [← hsplit, hcollisions] at hmem
    obtain ⟨_, hnil⟩ := hmem
    cases hnil

/-- Over any FIRST and FOLLOW with a set for each nonterminal, filling
strictly makes the claims that filling leniently makes, and it fails
exactly when the lenient table has a collision. If it does not fail, the
two tables are one. If it fails, it names a collision and the first two
writers there, and the second writer of no collision has claimed its
cell before. -/
theorem first_clash (h : load pairs = .ok g) (hfirst : ∀ A ∈ g.nonterminals, A ∈ first.keys)
    (hfollow : ∀ A ∈ g.nonterminals, A ∈ follow.keys) :
    ∃ t, g.table first follow false = .ok t ∧
      (∀ strict, g.table first follow strict =
        (ParsingTable.blank g.nonterminals g.terminals).claimAll strict
          (g.claims first follow)) ∧
      ((∃ e, g.table first follow true = .error e) ↔ t.collisions ≠ []) ∧
      (∀ u, g.table first follow true = .ok u → u = t) ∧
      ∀ e, g.table first follow true = .error e → ∃ place p q rest before after,
        e = .contested place.row place.column p q ∧
        (place, p :: q :: rest) ∈ t.collisions ∧
        g.claims first follow = before ++ ⟨place, q⟩ :: after ∧
        ∀ place' p' q' rest', (place', p' :: q' :: rest') ∈ t.collisions →
          ⟨place', q'⟩ ∉ before := by
  have wf := wellFormed_of_load h
  have hclaims := table_eq_claimAll wf hfirst hfollow
  refine ⟨_, (hclaims false).trans (ParsingTable.claimAll_lenient _ _), hclaims, ?_⟩
  rw [hclaims true]
  rcases ParsingTable.claimAll_strict (ParsingTable.uncontested_blank g.nonterminals g.terminals)
    (g.claims first follow) with ⟨hok, hall⟩ | ⟨before, c, after, p, hsplit, hclash, herror⟩
  · rw [hok]
    refine ⟨iff_of_false (fun ⟨e, he⟩ => ?_) fun hne => ?_, fun u hu => ?_, fun e he => ?_⟩
    · cases he
    · exact hne (ParsingTable.collisions_eq_nil_iff.2 hall)
    · exact (Except.ok.inj hu).symm
    · cases he
  · obtain ⟨rest, hcollision⟩ := hclash.mem_collisions after
    rw [← hsplit] at hcollision
    rw [herror]
    refine ⟨iff_of_true ⟨_, rfl⟩ (List.ne_nil_of_mem hcollision), fun u hu => ?_, fun e he => ?_⟩
    · cases hu
    · refine ⟨c.place, p, c.production, rest, before, after, (Except.error.inj he).symm,
        hcollision, hsplit, fun place' p' q' rest' hmem => ?_⟩
      obtain ⟨hws', -⟩ := ParsingTable.mem_collisions.1 hmem
      exact hclash.second_not_mem (hsplit ▸ hws'.symm)

/-- Sets that are no FIRST and FOLLOW: with the first two cells clash, in
one of them three productions, and with the second none. -/
theorem first_clash_of_three_writers :
    ∃ g, load [("A", ["Bb", "Cc", "ε"]), ("B", ["b"]), ("C", ["c"])] = .ok g ∧
      ∃ first follow first' : SetMap, (∀ A ∈ g.nonterminals, A ∈ first.keys ∧ A ∈ first'.keys) ∧
        (∀ A ∈ g.nonterminals, A ∈ follow.keys) ∧
        (∃ t place p q rest, g.table first follow false = .ok t ∧
          t.collisions.map (fun c => c.2.length) = [3, 2] ∧
          g.table first follow true = .error (.contested place.row place.column p q) ∧
          (place, p :: q :: rest) ∈ t.collisions) ∧
        ∃ t, g.table first' follow false = .ok t ∧ t.collisions = [] ∧
          g.table first' follow true = .ok t := by
  obtain ⟨g, h⟩ : ∃ g, load [("A", ["Bb", "Cc", "ε"]), ("B", ["b"]), ("C", ["c"])] = .ok g :=
    ⟨_, rfl⟩
  let first : SetMap := .ofList [(.single 'A', ∅),
    (.single 'B', .ofList [.single 'x', .single 'y']),
    (.single 'C', .ofList [.single 'y', .epsilon, .single 'x'])]
  let follow : SetMap := .ofList [(.single 'A', .ofList [.endMarker, .single 'x']),
    (.single 'B', ∅), (.single 'C', ∅)]
  let first' : SetMap := .ofList [(.single 'A', ∅), (.single 'B', .ofList [.single 'y']),
    (.single 'C', .ofList [.single 'z'])]
  have hfacts : (decide (∀ A ∈ g.nonterminals, (A ∈ first.keys ∧ A ∈ first'.keys) ∧
        A ∈ follow.keys),
      (g.table first follow false).toOption.map
        fun t => t.collisions.map fun c => c.2.length,
      (g.table first' follow false).toOption.map fun t => t.collisions) =
      (true, some [3, 2], some []) := by
    cases h
    decide +kernel
  simp only [Prod.mk.injEq, decide_eq_true_eq] at hfacts
  obtain ⟨hkeys, hcollisions, hnone⟩ := hfacts
  have hfirst : ∀ A ∈ g.nonterminals, A ∈ first.keys := fun A hA => (hkeys A hA).1.1
  have hfirst' : ∀ A ∈ g.nonterminals, A ∈ first'.keys := fun A hA => (hkeys A hA).1.2
  have hfollow : ∀ A ∈ g.nonterminals, A ∈ follow.keys := fun A hA => (hkeys A hA).2
  refine ⟨g, h, first, follow, first', fun A hA => ⟨hfirst A hA, hfirst' A hA⟩, hfollow, ?_, ?_⟩
  · obtain ⟨t, ht, -, hfails, -, hclash⟩ := first_clash h hfirst hfollow
    rw [ht] at hcollisions
    have hlist : t.collisions.map (fun c => c.2.length) = [3, 2] := Option.some.inj hcollisions
    obtain ⟨e, he⟩ := hfails.2 fun hnil => by rw [hnil] at hlist; cases hlist
    obtain ⟨place, p, q, rest, -, -, rfl, hmem, -⟩ := hclash e he
    exact ⟨t, place, p, q, rest, ht, hlist, he, hmem⟩
  · obtain ⟨t, ht, -, hfails, hsame, -⟩ := first_clash h hfirst' hfollow
    rw [ht] at hnone
    have hnil : t.collisions = [] := Option.some.inj hnone
    cases hstrict : g.table first' follow true with
    | error e => exact absurd hnil (hfails.1 ⟨e, hstrict⟩)
    | ok u => exact ⟨t, ht, hnil, congrArg Except.ok (hsame u hstrict)⟩

end Grammar

end Predictive
