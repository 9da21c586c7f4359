import Predictive.Proofs.Sets.FollowRules

/-!
# FOLLOW is what derivations put behind a nonterminal

The computed FOLLOW sets against the sentential forms of every
nonterminal, reachable or not.

Under a map that satisfies the rules, each sentential form that a
nonterminal B derives is in order (`Ordered`): behind every occurrence
of A in it stand only symbols of A's set, and where what is behind A
can vanish, A's set holds the set of B. One derivation step keeps this,
whether it rewrites what is before A, what is behind A, or brings A in
(`Ordered.of_produces`), so a whole derivation does. Conversely each
symbol that a rule adds is put there by a derivation
(`FollowOf.of_mem_follow`).

`mem_follow_iff` is the reading that later modules use.
-/

namespace Predictive

namespace Grammar

variable {g : Grammar} {f n : Symbol → SymbolSet} {N : Saturation} {l k : List Symbol}
  {A B x : Symbol}

/-! ## Completeness -/

/-- Behind every nonterminal of a form that `B` derives stands only what
its set holds, and its set holds that of `B` where nothing need stand
behind it. -/
def Ordered (f n : Symbol → SymbolSet) (B : Symbol) (l : List Symbol) : Prop :=
  ∀ before A after, l = before ++ A :: after → A.isNonterminal →
    (∀ s ∈ firstOfSequence f after, s ≠ .epsilon → s ∈ n A) ∧
      (.epsilon ∈ firstOfSequence f after → n B ⊆ n A)

namespace Ordered

theorem single (f n : Symbol → SymbolSet) (B : Symbol) : Ordered f n B [B] := by
  intro before A after h _
  cases before with
  | nil =>
    obtain ⟨rfl, rfl⟩ := List.cons.inj h
    exact ⟨fun s hs hε => absurd (SymbolSet.mem_single.1 hs) hε, fun _ _ hs => hs⟩
  | cons s before => simp at h

theorem of_produces (wf : g.WellFormed) (hf : g.FirstClosed f) (hn : g.FollowClosed f n)
    (h : g.Produces l k) (hl : Ordered f n B l) : Ordered f n B k := by
  obtain ⟨u, v, p, mem⟩ := h
  intro before A after hk hA
  have hlhs := wf.lhs_isNonterminal mem
  -- the nonterminal that is replaced was in order itself
  obtain ⟨hv, hvε⟩ := hl u p.lhs v rfl hlhs
  rcases occurrence_append hk with ⟨m, hue, rfl⟩ | ⟨m, rfl, rfl⟩
  · rcases occurrence_append hue with ⟨m', rfl, rfl⟩ | ⟨m', rfl, he⟩
    · -- A stands before it: the replacement adds nothing to FIRST of what is behind A
      obtain ⟨hs, hε⟩ := hl before A (m' ++ p.lhs :: v) (by simp) hA
      have hsub : firstOfSequence f (m' ++ p.expansion ++ v) ⊆
          firstOfSequence f (m' ++ p.lhs :: v) := hf.of_produces wf (.intro m' v p mem)
      exact ⟨fun s h => hs s (hsub s h), fun h => hε (hsub _ h)⟩
    · -- A comes in with the right-hand side
      have hrhs := rhs_of_expansion he
      constructor
      · intro s hs hε
        rcases mem_firstOfSequence_append.1 hs with ⟨hm, -⟩ | ⟨hm, hs⟩
        · exact hn.starts p mem m' A m hrhs hA s hm hε
        · exact hn.inherits p mem m' A m hrhs hA hm s (hv s hs hε)
      · intro hε s hs
        obtain ⟨-, hne⟩ | ⟨hm, hε⟩ := mem_firstOfSequence_append.1 hε
        · exact absurd rfl hne
        · exact hn.inherits p mem m' A m hrhs hA hm s (hvε hε s hs)
  · -- A stands behind it
    exact hl (u ++ p.lhs :: m) A after (by simp) hA

theorem of_derives (wf : g.WellFormed) (hf : g.FirstClosed f) (hn : g.FollowClosed f n)
    (h : g.Derives l k) (hl : Ordered f n B l) : Ordered f n B k := by
  induction h with
  | refl => exact hl
  | head step _ ih => exact ih (hl.of_produces wf hf hn step)

end Ordered

/-- What a derivation puts behind a nonterminal is in its set. -/
theorem FollowClosed.mem_of_derives (wf : g.WellFormed) (hf : g.FirstClosed f)
    (hn : g.FollowClosed f n) (hA : A.isNonterminal) (hx : x.isTerminal) {u v : List Symbol}
    (h : g.Derives [B] (u ++ A :: x :: v)) : x ∈ n A := by
  have hordered := (Ordered.single f n B).of_derives wf hf hn h
  have hε := (Symbol.isTerminal_iff.1 hx).2
  refine (hordered u A (x :: v) rfl hA).1 x (mem_firstOfSequence_cons.2 (Or.inl ⟨?_, hε⟩)) hε
  exact (mem_firstOfSequence_terminal hx).2 rfl

/-- What follows a nonterminal follows the last nonterminal of a form
that it derives. -/
theorem FollowClosed.subset_of_derives (wf : g.WellFormed) (hf : g.FirstClosed f)
    (hn : g.FollowClosed f n) (hA : A.isNonterminal) {u : List Symbol}
    (h : g.Derives [B] (u ++ [A])) : n B ⊆ n A := by
  have hordered := (Ordered.single f n B).of_derives wf hf hn h
  exact (hordered u A [] rfl hA).2 (SymbolSet.mem_single.2 rfl)

/-! ## Soundness -/

/-- What belongs in FOLLOW of `A`: the terminals that some nonterminal's
derivation puts behind it, and the end marker when it can end a
sentential form. -/
def FollowOf (g : Grammar) (A x : Symbol) : Prop :=
  (x ∈ g.terminals ∧ ∃ B ∈ g.nonterminals, ∃ u v, g.Derives [B] (u ++ A :: x :: v)) ∨
    (x = .endMarker ∧ ∃ u, g.Derives [g.start] (u ++ [A]))

theorem FollowOf.of_starts (wf : g.WellFormed) {p : Production} (mem : p ∈ g.productions)
    {before after : List Symbol} (hrhs : p.rhs = before ++ A :: after) (hA : A.isNonterminal)
    (hx : g.FirstOf (after.filter (· != .epsilon)) x) (hε : x ≠ .epsilon) : g.FollowOf A x := by
  obtain ⟨hexpand, hafter⟩ := wf.expansion_of_occurrence mem hrhs hA
  rw [hafter] at hx
  obtain ⟨ht, rest, hd⟩ := hx.begins hε
  refine Or.inl ⟨ht, p.lhs, lhs_mem_nonterminals mem, before, rest, ?_⟩
  have hbody := hexpand ▸ Derives.of_mem mem
  exact hbody.trans ((hd.append_left [A]).append_left before)

theorem FollowOf.of_inherits (wf : g.WellFormed) {p : Production} (mem : p ∈ g.productions)
    {before after : List Symbol} (hrhs : p.rhs = before ++ A :: after) (hA : A.isNonterminal)
    (hε : g.FirstOf (after.filter (· != .epsilon)) .epsilon) (hx : g.FollowOf p.lhs x) :
    g.FollowOf A x := by
  obtain ⟨hexpand, hafter⟩ := wf.expansion_of_occurrence mem hrhs hA
  rw [hafter] at hε
  have hbody : g.Derives [p.lhs] (before ++ [A]) := by
    have hlast := (hexpand ▸ Derives.of_mem mem).trans
      (((hε.vanishes wf).append_left [A]).append_left before)
    simpa using hlast
  rcases hx with ⟨ht, B, hB, u, v, hd⟩ | ⟨he, u, hd⟩
  · refine Or.inl ⟨ht, B, hB, u ++ before, v, ?_⟩
    have hin : g.Derives [B] (u ++ [p.lhs] ++ x :: v) := by simpa using hd
    simpa using hin.replace hbody
  · refine Or.inr ⟨he, u ++ before, ?_⟩
    have hin : g.Derives [g.start] (u ++ [p.lhs] ++ []) := by simpa using hd
    simpa using hin.replace hbody

theorem mem_keys_first {A : Symbol} (hA : A ∈ g.nonterminals) : A ∈ (g.first ∅).sets.keys :=
  (keys_first g ∅).symm ▸ hA

theorem FollowOf.of_mem_follow (wf : g.WellFormed)
    (h : g.follow (g.first ∅).sets ∅ = .ok N) : ∀ A x, x ∈ N.sets.find A → g.FollowOf A x := by
  have hsequence : ∀ p ∈ g.productions, ∀ before A after, p.rhs = before ++ A :: after →
      ∀ x ∈ firstOfSequence (g.first ∅).sets.find after,
        g.FirstOf (after.filter (· != .epsilon)) x := by
    intro p mem before A after hrhs x hx
    refine (mem_firstOfSequence_iff wf fun s hs => ?_).1 hx
    by_cases hε : s = .epsilon
    · exact Or.inr hε
    · exact Or.inl (wf.isKnown_of_mem_rhs mem (by simp [hrhs, hs]) hε)
  refine follow_induction wf (fun _ => mem_keys_first) h (Or.inr ⟨rfl, [], .refl _⟩)
    (fun A s hs => absurd hs (SymbolSet.not_mem_empty s)) ?_ ?_
  · intro p mem before A after hrhs hA x hx hε
    exact .of_starts wf mem hrhs hA (hsequence p mem before A after hrhs x hx) hε
  · intro p mem before A after hrhs hA hε x hx
    exact .of_inherits wf mem hrhs hA (hsequence p mem before A after hrhs _ hε) hx

/-! ## Both directions -/

theorem mem_follow_iff (wf : g.WellFormed) (h : g.follow (g.first ∅).sets ∅ = .ok N)
    (hA : A ∈ g.nonterminals) : x ∈ N.sets.find A ↔ g.FollowOf A x := by
  refine ⟨FollowOf.of_mem_follow wf h A x, fun hx => ?_⟩
  have hf := firstClosed_first wf ∅
  have hn := followClosed_follow wf (fun _ => mem_keys_first) h
  have hnonterminal := wf.head_nonterminal A hA
  rcases hx with ⟨ht, B, -, u, v, hd⟩ | ⟨rfl, u, hd⟩
  · exact hn.mem_of_derives wf hf hnonterminal (isTerminal_of_mem ht) hd
  · have hstart := followSeed_subset_follow wf (fun _ => mem_keys_first) h wf.start_mem
      .endMarker (mem_find_followSeed.2 (Or.inl ⟨rfl, rfl⟩))
    exact hn.subset_of_derives wf hf hnonterminal hd _ hstart

theorem derives_endMarker (wf : g.WellFormed) (h : g.Derives [g.start, .endMarker] k) :
    ∃ l, k = l ++ [.endMarker] ∧ g.Derives [g.start] l := by
  obtain ⟨l, m, rfl, hl, hm⟩ := Derives.split (show g.Derives ([g.start] ++ [.endMarker]) k from h)
  refine ⟨l, ?_, hl⟩
  rw [hm.inert fun p mem hp => ?_]
  exact wf.lhs_ne_of_terminal mem Symbol.isNonterminal_endMarker (List.mem_singleton.1 hp)

/-- Where every nonterminal is reachable, what belongs in FOLLOW is what
stands behind it in a form derived from the start and the end
marker. -/
theorem followOf_iff_of_reachable (wf : g.WellFormed)
    (hreach : ∀ B ∈ g.nonterminals, ∃ u v, g.Derives [g.start] (u ++ B :: v)) :
    g.FollowOf A x ↔ (x ∈ g.terminals ∨ x = .endMarker) ∧
      ∃ u v, g.Derives [g.start, .endMarker] (u ++ A :: x :: v) := by
  constructor
  · rintro (⟨ht, B, hB, u, v, hd⟩ | ⟨rfl, u, hd⟩)
    · obtain ⟨u', v', hd'⟩ := hreach B hB
      have hin : g.Derives [g.start] (u' ++ [B] ++ v') := by simpa using hd'
      refine ⟨Or.inl ht, u' ++ u, v ++ v' ++ [.endMarker], ?_⟩
      simpa using (hin.replace hd).append_right [.endMarker]
    · exact ⟨Or.inr rfl, u, [], by simpa using hd.append_right [.endMarker]⟩
  · rintro ⟨hx, u, v, hd⟩
    obtain ⟨l, hl, hdl⟩ := derives_endMarker wf hd
    rcases List.eq_nil_or_concat v with rfl | ⟨v, s, rfl⟩
    · -- the symbol behind A is the end marker itself
      have hlast : (u ++ [A]) ++ [x] = l ++ [.endMarker] := by simpa using hl
      obtain ⟨rfl, hx'⟩ := List.append_inj' hlast rfl
      exact Or.inr ⟨List.singleton_inj.1 hx', u, hdl⟩
    · have hlast : (u ++ A :: x :: v) ++ [s] = l ++ [.endMarker] := by simpa using hl
      obtain ⟨rfl, -⟩ := List.append_inj' hlast rfl
      rcases hx with ht | rfl
      · exact Or.inl ⟨ht, g.start, wf.start_mem, u, v, hdl⟩
      · exact absurd (hdl.isKnown_of_start wf .endMarker (by simp)) wf.endMarker_not_isKnown

/-! ## The law of FOLLOW -/

/-- The computed FOLLOW sets are the derivational ones: over the
sentential forms of every nonterminal, and, where every nonterminal is
reachable, over those of the start symbol before the end marker. -/
theorem mem_follow_iff_derives {pairs : List (Text × List Text)} {g : Grammar}
    (h : load pairs = .ok g) :
    ∃ N, g.follow (g.first ∅).sets ∅ = .ok N ∧ N.sets.keys = g.nonterminals ∧
      (∀ A ∈ g.nonterminals, ∃ S, N.sets.get? A = some S ∧ .epsilon ∉ S ∧
        ∀ x, x ∈ S ↔
          (x ∈ g.terminals ∧ ∃ B ∈ g.nonterminals, ∃ u v, g.Derives [B] (u ++ A :: x :: v)) ∨
            (x = .endMarker ∧ ∃ u, g.Derives [g.start] (u ++ [A]))) ∧
      ((∀ B ∈ g.nonterminals, ∃ u v, g.Derives [g.start] (u ++ B :: v)) →
        ∀ A ∈ g.nonterminals, ∃ S, N.sets.get? A = some S ∧
          ∀ x, x ∈ S ↔ (x ∈ g.terminals ∨ x = .endMarker) ∧
            ∃ u v, g.Derives [g.start, .endMarker] (u ++ A :: x :: v)) := by
  have wf := wellFormed_of_load h
  obtain ⟨N, hN⟩ := exists_follow wf (fun _ => mem_keys_first) ∅
  have hget := fun A => get?_follow wf (fun _ => mem_keys_first) hN (A := A)
  refine ⟨N, hN, keys_follow wf (fun _ => mem_keys_first) hN, fun A hA => ?_,
    fun hreach A hA => ?_⟩
  · refine ⟨_, hget A hA, fun hε => ?_, fun x => mem_follow_iff wf hN hA⟩
    rcases (mem_follow_iff wf hN hA).1 hε with ⟨ht, -⟩ | ⟨he, -⟩
    · exact wf.epsilon_not_isKnown (Or.inr ht)
    · exact absurd he (by decide)
  · exact ⟨_, hget A hA, fun x =>
      (mem_follow_iff wf hN hA).trans (followOf_iff_of_reachable wf hreach)⟩

/-- A nonterminal that only an unreachable one puts before `d`, and a
grammar in which all are reachable. -/
theorem mem_follow_iff_derives_of_unreachable :
    (∃ g, load [("S", ["ABc", "A"]), ("A", ["a", "ε"]), ("B", ["A", "b"]), ("U", ["Bd"])] = .ok g ∧
      (∃ B ∈ g.nonterminals, ∃ u v,
        g.Derives [B] (u ++ .single 'A' :: .single 'd' :: v)) ∧
      (∃ u, g.Derives [g.start] (u ++ [.single 'A'])) ∧
      ¬ ∃ u, g.Derives [g.start] (u ++ [.single 'B'])) ∧
    ∃ g, load [("S", ["AB"]), ("A", ["a", "ε"]), ("B", ["bA", "ε"])] = .ok g ∧
      (∀ B ∈ g.nonterminals, ∃ u v, g.Derives [g.start] (u ++ B :: v)) ∧
      ∃ u v, g.Derives [g.start, .endMarker] (u ++ .single 'A' :: .single 'b' :: v) := by
  constructor
  · have h : load [("S", ["ABc", "A"]), ("A", ["a", "ε"]), ("B", ["A", "b"]),
        ("U", ["Bd"])] = .ok _ := rfl
    refine ⟨_, h, ?_⟩
    obtain ⟨N, hN, -, hfollow, -⟩ := mem_follow_iff_derives h
    obtain rfl := Except.ok.inj hN
    obtain ⟨S, hS, -, mem_S⟩ := hfollow (.single 'A') (by decide)
    obtain ⟨T, hT, -, mem_T⟩ := hfollow (.single 'B') (by decide)
    obtain rfl := Option.some.inj hS
    obtain rfl := Option.some.inj hT
    refine ⟨?_, ?_, fun hd => ?_⟩
    · exact ((mem_S (.single 'd')).1 (by decide)).elim And.right fun h => absurd h.1 (by decide)
    · exact ((mem_S .endMarker).1 (by decide)).elim (fun h => absurd h.1 (by decide)) And.right
    · exact absurd ((mem_T .endMarker).2 (Or.inr ⟨rfl, hd⟩)) (by decide)
  · have h : load [("S", ["AB"]), ("A", ["a", "ε"]), ("B", ["bA", "ε"])] = .ok _ := rfl
    refine ⟨_, h, ?_⟩
    obtain ⟨N, hN, -, -, hfollow⟩ := mem_follow_iff_derives h
    obtain rfl := Except.ok.inj hN
    refine (fun hreach => And.intro hreach ?_) (List.forall_mem_cons.2 ⟨⟨[], [], .refl _⟩,
      List.forall_mem_cons.2 ⟨⟨[], [.single 'B'], ?_⟩,
        List.forall_mem_cons.2 ⟨⟨[.single 'A'], [], ?_⟩, fun B hB => by cases hB⟩⟩⟩)
    · obtain ⟨S, hS, mem_S⟩ := hfollow hreach (.single 'A') (by decide)
      obtain rfl := Option.some.inj hS
      exact ((mem_S (.single 'b')).1 (by decide)).2
    · exact Derives.of_mem (p := ⟨.single 'S', [.single 'A', .single 'B']⟩) (by decide)
    · exact Derives.of_mem (p := ⟨.single 'S', [.single 'A', .single 'B']⟩) (by decide)

end Grammar

end Predictive
