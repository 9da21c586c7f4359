import Predictive.Proofs.Grammar.Loaded
import Predictive.Proofs.Text.Encoder
import Predictive.Text.Utf8

/-!
# The symbols of a grammar can be encoded

A text that was decoded from bytes holds characters alone, so every
encoder takes it (`Text.takes_of_ofUtf8`). Cutting it into lines, lines
into sides and sides into alternatives takes nothing in, and a terminal
of the grammar is a code point of an alternative. A nonterminal is a
capital letter, whatever the lines are. So the symbols of a grammar that
was read can be encoded (`Grammar.takes_of_ofLines`).
-/

namespace Predictive

variable {e : Encoder}

/-! ## Cutting -/

namespace Text

variable {t : Text}

theorem takes_of_ofUtf8 {bytes : List UInt8} (h : ofUtf8 bytes = .ok t) : e.Takes t := by
  have hmap : ∀ {x : Char} {rest : Except Utf8Error Text} {t : Text},
      rest.map (.char x :: ·) = .ok t → (∀ t', rest = .ok t' → e.Takes t') → e.Takes t := by
    intro x rest t h ih
    cases rest with
    | error => cases h
    | ok t' =>
      obtain rfl := Except.ok.inj h
      exact Encoder.takes_cons.2 ⟨e.takes_char x, ih t' rfl⟩
  rw [ofUtf8] at h
  generalize (0 : Nat) = position at h
  -- a branch ends the text, refuses the bytes, or puts a character before the rest
  fun_induction ofUtf8From position bytes generalizing t
  all_goals first
    | (obtain rfl := Except.ok.inj h; exact Encoder.takes_nil)
    | cases h
    | exact hmap h (by assumption)

theorem takes_linesFrom {begun : Text} (hbegun : e.Takes begun) (h : e.Takes t) :
    ∀ line ∈ linesFrom begun t, e.Takes line := by
  have hreverse : ∀ {begun : Text}, e.Takes begun → e.Takes begun.reverse :=
    fun hbegun => hbegun.mono (List.reverse_subset.2 fun _ hc => hc)
  fun_induction linesFrom begun t with
  | case1 => exact List.forall_mem_nil _
  | case2 => exact List.forall_mem_singleton.2 (hreverse hbegun)
  | case3 begun rest ih =>
    obtain ⟨-, hrest⟩ := Encoder.takes_cons.1 (Encoder.takes_cons.1 h).2
    exact List.forall_mem_cons.2 ⟨hreverse hbegun, ih Encoder.takes_nil hrest⟩
  | case4 begun c rest _ _ ih =>
    exact List.forall_mem_cons.2
      ⟨hreverse hbegun, ih Encoder.takes_nil (Encoder.takes_cons.1 h).2⟩
  | case5 begun c rest _ _ ih =>
    obtain ⟨hc, hrest⟩ := Encoder.takes_cons.1 h
    exact ih (Encoder.takes_cons.2 ⟨hc, hbegun⟩) hrest

theorem takes_strip (h : e.Takes t) : e.Takes (strip t) := by
  refine h.mono fun c hc => ?_
  have hc := List.dropWhile_subset _ (List.mem_reverse.1 hc)
  exact List.dropWhile_subset _ (List.mem_reverse.1 hc)

theorem takes_cutAt? {mark before after : Text} (h : e.Takes t)
    (hcut : cutAt? mark t = some (before, after)) : e.Takes after := by
  rw [cutAt?_eq_some hcut, Encoder.takes_append] at h
  exact h.2

theorem takes_splitOn {mark : Char} (h : e.Takes t) : ∀ piece ∈ t.splitOn (.char mark),
    e.Takes piece := by
  have hwhole : [CodePoint.char mark].intercalate (t.splitOn (.char mark)) = t :=
    List.intercalate_splitOn _
  rw [← hwhole] at h
  exact (Encoder.takes_join (Encoder.takes_cons.2 ⟨e.takes_char mark, Encoder.takes_nil⟩)).1 h

end Text

/-! ## Reading -/

namespace Grammar

variable {g : Grammar} {lines : List Text} {line : Text} {pair : Text × List Text}

theorem takes_readLine (h : e.Takes line) (hread : readLine line = .ok pair) :
    ∀ alternative ∈ pair.2, e.Takes alternative := by
  have hparts : ∀ {mark : Text} {sep : Char} {left right : Text},
      Text.cutAt? mark line = some (left, right) →
        (if (Text.unblank left).isEmpty then .error (.emptyHead line)
          else .ok (Text.unblank left, right.splitOn (.char sep)) : Except GrammarError _) =
            .ok pair → ∀ alternative ∈ pair.2, e.Takes alternative := by
    intro mark sep left right hcut hpair
    split at hpair
    · cases hpair
    · obtain rfl := Except.ok.inj hpair
      exact Text.takes_splitOn (Text.takes_cutAt? h hcut)
  rw [readLine] at hread
  cases harrow : Text.cutAt? "->" line with
  | some parts => exact hparts harrow (by simpa only [harrow] using hread)
  | none =>
    cases hsign : Text.cutAt? "=" line with
    | some parts => exact hparts hsign (by simpa only [harrow, hsign] using hread)
    | none =>
      simp only [harrow, hsign] at hread
      cases hread

theorem exists_line_of_mem_readLines {pairs : List (Text × List Text)}
    (h : readLines lines = .ok pairs) (hpair : pair ∈ pairs) :
    ∃ line ∈ lines, readLine line = .ok pair := by
  induction lines generalizing pairs with
  | nil =>
    obtain rfl := Except.ok.inj h
    cases hpair
  | cons line lines ih =>
    obtain ⟨first, hfirst, h⟩ := Except.bind_eq_ok.1 h
    obtain ⟨rest, hrest, h⟩ := Except.bind_eq_ok.1 h
    obtain rfl := Except.ok.inj h
    rcases List.mem_cons.1 hpair with rfl | hpair
    · exact ⟨line, List.mem_cons_self .., hfirst⟩
    · obtain ⟨line', hline', hread⟩ := ih hrest hpair
      exact ⟨line', List.mem_cons_of_mem _ hline', hread⟩

theorem takes_of_isNonterminal {A : Symbol} (h : A.isNonterminal) : e.Takes A.text := by
  obtain ⟨c, rfl, -, hZ⟩ := Symbol.isNonterminal_iff.1 h
  refine List.forall_mem_singleton.2 ?_
  cases c with
  | char x => exact e.takes_char x
  | half i =>
    have hlarge : 0xD800 + i.val ≤ 90 := hZ
    omega

theorem takes_normalized {alternative : Text} (h : e.Takes alternative) :
    ∀ s ∈ normalized alternative, e.Takes s.text := by
  rw [normalized]
  split
  · exact List.forall_mem_singleton.2 (Encoder.takes_chars ['ε'])
  · exact List.forall_mem_map.2 fun c hc =>
      List.forall_mem_singleton.2 (h c (List.mem_of_mem_filter hc))

theorem takes_of_ofLines (hlines : ∀ line ∈ lines, e.Takes line) (h : ofLines lines = .ok g)
    {s : Symbol} (hs : g.IsKnown s) : e.Takes s.text := by
  obtain ⟨pairs, hread, hload⟩ := Except.bind_eq_ok.1 h
  have wf := wellFormed_of_load hload
  obtain ⟨-, hg, -, -⟩ := load_eq_ok_iff.1 hload
  rcases hs with hn | ht
  · exact takes_of_isNonterminal (wf.head_nonterminal s hn)
  · obtain ⟨-, p, mem, hs⟩ := mem_terminals.1 ht
    obtain ⟨pair, hpair, -, alternative, halternative, hrhs⟩ :=
      mem_bodiesOf.1 ((mem_productions_iff hg).1 mem)
    obtain ⟨line, hline, hpair⟩ := exists_line_of_mem_readLines hread hpair
    obtain ⟨line', hline', rfl⟩ := List.mem_map.1 (List.mem_of_mem_filter hline)
    have hline := Text.takes_strip (hlines line' hline')
    exact takes_normalized (takes_readLine hline hpair alternative halternative) s (hrhs ▸ hs)

end Grammar

end Predictive
