import Mathlib.Data.List.Induction
import Predictive.Proofs.Sets.Sequence

/-!
# Scanning a sequence

FIRST of a sequence over a finished map is gathered by one scan from
the left. The scan passes over ε, is left at the first terminal and at
the first nonterminal that cannot vanish, and adds ε only when it comes
to the end of the sequence.

What a sequence does to a scan that was not left before depends on FIRST
of the sequence alone (`readAll_going`): all of it but ε is added to
what was gathered, and the scan goes on exactly when ε is in it. From
this come the laws of FIRST over a finished map. They hold of failures
too, and do not ask for a set of any nonterminal behind the place where
the scan is left: two sequences are read one after the other
(`firstOfSequence_append`), a sequence of one symbol is read as the
symbol (`firstOfSequence_singleton`), and reading fails exactly when the
scan comes to a nonterminal without a set
(`firstOfSequence_eq_error_iff`).
-/

namespace Predictive

variable {first : SetMap} {l k : List Symbol} {s : Symbol} {S : SymbolSet}

/-! ## One part behind another -/

namespace SymbolSet

variable {behind : Except AnalysisError SymbolSet}

/-- FIRST of a part with FIRST `S` and of what stands behind it, which
is asked for only when the part can vanish. -/
def followedBy (S : SymbolSet) (behind : Except AnalysisError SymbolSet) :
    Except AnalysisError SymbolSet :=
  if .epsilon ∈ S then behind.map (S.erase .epsilon ∪ ·) else .ok S

theorem followedBy_of_mem (h : .epsilon ∈ S) :
    S.followedBy behind = behind.map (S.erase .epsilon ∪ ·) := if_pos h

theorem followedBy_of_not_mem (h : .epsilon ∉ S) : S.followedBy behind = .ok S := if_neg h

theorem followedBy_single (S : SymbolSet) : S.followedBy (.ok (single .epsilon)) = .ok S := by
  by_cases hε : Symbol.epsilon ∈ S
  · rw [followedBy_of_mem hε]
    refine congrArg Except.ok (SymbolSet.ext fun x => ?_)
    by_cases hx : x = .epsilon <;> simp [hx, hε]
  · exact followedBy_of_not_mem hε

theorem followedBy_eq_error_iff {e : AnalysisError} :
    S.followedBy behind = .error e ↔ .epsilon ∈ S ∧ behind = .error e := by
  by_cases hε : Symbol.epsilon ∈ S
  · rw [followedBy_of_mem hε, and_iff_right hε]
    cases behind <;> simp [Except.map]
  · rw [followedBy_of_not_mem hε]
    exact iff_of_false (fun h => by cases h) fun h => hε h.1

end SymbolSet

namespace SetMap

theorem firstOfSequence_cons (first : SetMap) (s : Symbol) (l : List Symbol) :
    first.firstOfSequence (s :: l) =
      first.firstOfSymbol s >>= (·.followedBy (first.firstOfSequence l)) := by
  rw [firstOfSequence, firstOfSymbol]
  split
  · show _ = (SymbolSet.single .epsilon).followedBy _
    rw [SymbolSet.followedBy_of_mem (SymbolSet.mem_single.2 rfl)]
    cases first.firstOfSequence l with
    | error e => rfl
    | ok T => exact congrArg Except.ok (SymbolSet.ext fun x => by simp)
  · next hs =>
    split
    · cases first.require s <;> rfl
    · show _ = (SymbolSet.single s).followedBy _
      rw [SymbolSet.followedBy_of_not_mem fun h => hs (SymbolSet.mem_single.1 h).symm]

theorem firstOfSequence_singleton (first : SetMap) (s : Symbol) :
    first.firstOfSequence [s] = first.firstOfSymbol s := by
  rw [firstOfSequence_cons]
  cases first.firstOfSymbol s with
  | error e => rfl
  | ok S => exact S.followedBy_single

end SetMap

/-! ## The scan -/

/-- What a scan gathered, and whether it goes on. -/
@[ext]
structure Scan where
  gathered : SymbolSet
  going : Bool
deriving DecidableEq

namespace Scan

def start : Scan := ⟨∅, true⟩

/-- Reading one symbol. A scan that was left reads nothing. -/
def read (first : SetMap) (c : Scan) (s : Symbol) : Except AnalysisError Scan :=
  if c.going = false ∨ s = .epsilon then .ok c
  else if s.isNonterminal then
    (first.require s).map fun here => ⟨c.gathered ∪ here.erase .epsilon, .epsilon ∈ here⟩
  else .ok ⟨c.gathered.insert s, false⟩

def readAll (first : SetMap) (c : Scan) (l : List Symbol) : Except AnalysisError Scan :=
  l.foldlM (read first) c

/-- What was gathered, with ε when the scan came to the end. -/
def answer (c : Scan) : SymbolSet :=
  if c.going then c.gathered.insert .epsilon else c.gathered

/-- The scan behind `gathered` and then a part with FIRST `S`. -/
def past (gathered S : SymbolSet) : Scan := ⟨gathered ∪ S.erase .epsilon, .epsilon ∈ S⟩

theorem past_of_mem (R : SymbolSet) (h : .epsilon ∈ S) :
    past R S = ⟨R ∪ S.erase .epsilon, true⟩ := Scan.ext rfl (decide_eq_true h)

theorem past_of_not_mem (R : SymbolSet) (h : .epsilon ∉ S) : past R S = ⟨R ∪ S, false⟩ := by
  refine Scan.ext (SymbolSet.ext fun x => ?_) (decide_eq_false h)
  have hx : x ∈ S → x ≠ .epsilon := fun hx he => h (he ▸ hx)
  simp only [past, SymbolSet.mem_union, SymbolSet.mem_erase, and_iff_left_of_imp hx]

theorem past_single_epsilon (R : SymbolSet) : past R (.single .epsilon) = ⟨R, true⟩ :=
  Scan.ext (SymbolSet.ext fun x => by simp [past]) (by simp [past])

/-- A part that can vanish is read together with what stands behind
it. -/
theorem past_union (R S T : SymbolSet) :
    past (R ∪ S.erase .epsilon) T = past R (S.erase .epsilon ∪ T) := by
  refine Scan.ext (SymbolSet.ext fun x => ?_) (by simp [past])
  by_cases hx : x = .epsilon <;> simp [past, hx, or_assoc]

theorem answer_past (R S : SymbolSet) : (past R S).answer = R ∪ S := by
  by_cases hε : Symbol.epsilon ∈ S
  · rw [past_of_mem R hε]
    refine SymbolSet.ext fun x => ?_
    by_cases hx : x = .epsilon <;> simp [answer, hx, hε]
  · rw [past_of_not_mem R hε]
    rfl

/-! ## Reading -/

/-- A symbol does to a scan what its FIRST says. -/
theorem read_going (first : SetMap) (R : SymbolSet) (s : Symbol) :
    read first ⟨R, true⟩ s = (first.firstOfSymbol s).map (past R) := by
  rcases s.kind_cases with hn | ht | rfl
  · have hε := Symbol.ne_epsilon_of_isNonterminal hn
    simp only [read, SetMap.firstOfSymbol, hε, hn, or_self, if_false, if_true,
      Bool.true_eq_false]
    rfl
  · obtain ⟨hn, hε⟩ := Symbol.isTerminal_iff.1 ht
    have hpast : past R (.single s) = ⟨R.insert s, false⟩ := by
      rw [past_of_not_mem R fun h => hε (SymbolSet.mem_single.1 h).symm]
      exact Scan.ext (SymbolSet.ext fun x => by simp [or_comm]) rfl
    simp [read, SetMap.firstOfSymbol, hε, hn, Except.map, hpast]
  · simp [read, SetMap.firstOfSymbol, Except.map, past_single_epsilon]

theorem readAll_cons (first : SetMap) (c : Scan) (s : Symbol) (l : List Symbol) :
    readAll first c (s :: l) = read first c s >>= (readAll first · l) :=
  List.foldlM_cons

theorem readAll_append (first : SetMap) (c : Scan) (l k : List Symbol) :
    readAll first c (l ++ k) = readAll first c l >>= (readAll first · k) :=
  List.foldlM_append

theorem readAll_left (first : SetMap) (R : SymbolSet) (l : List Symbol) :
    readAll first ⟨R, false⟩ l = .ok ⟨R, false⟩ := by
  induction l with
  | nil => rfl
  | cons s l ih =>
    rw [readAll_cons, read, if_pos (Or.inl rfl)]
    exact ih

/-- Reading on behind a part with FIRST `S` comes to what the two parts
have together, if `k` does to a scan what its FIRST says. -/
theorem readAll_past (R S : SymbolSet)
    (h : ∀ R, readAll first ⟨R, true⟩ k = (first.firstOfSequence k).map (past R)) :
    readAll first (past R S) k = (S.followedBy (first.firstOfSequence k)).map (past R) := by
  by_cases hε : Symbol.epsilon ∈ S
  · rw [past_of_mem R hε, SymbolSet.followedBy_of_mem hε, h]
    cases first.firstOfSequence k with
    | error e => rfl
    | ok T => exact congrArg Except.ok (past_union R S T)
  · rw [past_of_not_mem R hε, SymbolSet.followedBy_of_not_mem hε, readAll_left]
    exact congrArg Except.ok (past_of_not_mem R hε).symm

/-- A sequence does to a scan what its FIRST says, whatever the scan
gathered before. -/
theorem readAll_going (first : SetMap) (R : SymbolSet) (l : List Symbol) :
    readAll first ⟨R, true⟩ l = (first.firstOfSequence l).map (past R) := by
  -- what was gathered grows from symbol to symbol, so the rest is read behind any set
  induction l generalizing R with
  | nil => exact congrArg Except.ok (past_single_epsilon R).symm
  | cons s l ih =>
    rw [readAll_cons, read_going, SetMap.firstOfSequence_cons]
    cases first.firstOfSymbol s with
    | error e => rfl
    | ok S => exact readAll_past R S ih

theorem map_answer_past (found : Except AnalysisError SymbolSet) :
    (found.map (past ∅)).map answer = found := by
  cases found with
  | error e => rfl
  | ok S => exact congrArg Except.ok ((answer_past ∅ S).trans (SymbolSet.ext fun x => by simp))

theorem map_answer_readAll (first : SetMap) (l : List Symbol) :
    (readAll first start l).map answer = first.firstOfSequence l := by
  rw [start, readAll_going, map_answer_past]

end Scan

namespace SetMap

/-! ## Sequences one behind the other -/

/-- FIRST of two sequences one after the other. The latter is read when
the former can vanish. -/
theorem firstOfSequence_append (first : SetMap) (l k : List Symbol) :
    first.firstOfSequence (l ++ k) =
      first.firstOfSequence l >>= (·.followedBy (first.firstOfSequence k)) := by
  rw [← Scan.map_answer_readAll, Scan.readAll_append, Scan.start, Scan.readAll_going]
  cases first.firstOfSequence l with
  | error e => rfl
  | ok S =>
    show (Scan.readAll first (Scan.past ∅ S) k).map Scan.answer = S.followedBy _
    rw [Scan.readAll_past ∅ S fun R => Scan.readAll_going first R k, Scan.map_answer_past]

/-! ## When reading fails -/

theorem firstOfSymbol_eq_error_iff {e : AnalysisError} :
    first.firstOfSymbol s = .error e ↔
      s.isNonterminal ∧ s ∉ first.keys ∧ e = .missingSet s := by
  rcases s.kind_cases with hn | ht | rfl
  · rw [firstOfSymbol, if_neg (Symbol.ne_epsilon_of_isNonterminal hn), if_pos hn, require,
      ← OrderedMap.get?_eq_none]
    cases first.get? s <;> simp [hn, eq_comm]
  · obtain ⟨hn, hε⟩ := Symbol.isTerminal_iff.1 ht
    simp [firstOfSymbol, hε, hn]
  · simp [firstOfSymbol]

/-- Reading fails exactly when a part of the sequence that can vanish
stands before a nonterminal without a set. -/
theorem firstOfSequence_eq_error_iff {e : AnalysisError} :
    first.firstOfSequence l = .error e ↔
      ∃ before A after S, l = before ++ A :: after ∧ first.firstOfSequence before = .ok S ∧
        .epsilon ∈ S ∧ A.isNonterminal ∧ A ∉ first.keys ∧ e = .missingSet A := by
  constructor
  · intro h
    -- from the end: what stands before the last symbol fails already, or it can vanish
    induction l using List.reverseRecOn with
    | nil => cases h
    | append_singleton l s ih =>
      rw [firstOfSequence_append, firstOfSequence_singleton] at h
      cases hl : first.firstOfSequence l with
      | error e' =>
        rw [hl] at h
        obtain ⟨before, A, after, S, rfl, hA⟩ := ih (hl.trans (congrArg _ (Except.error.inj h)))
        exact ⟨before, A, after ++ [s], S, by simp, hA⟩
      | ok S =>
        rw [hl] at h
        obtain ⟨hε, hs⟩ := SymbolSet.followedBy_eq_error_iff.1 h
        exact ⟨l, s, [], S, rfl, hl, hε, firstOfSymbol_eq_error_iff.1 hs⟩
  · rintro ⟨before, A, after, S, rfl, hbefore, hε, hA⟩
    rw [firstOfSequence_append, hbefore, firstOfSequence_cons, firstOfSymbol_eq_error_iff.2 hA]
    exact SymbolSet.followedBy_eq_error_iff.2 ⟨hε, rfl⟩

/-- A map that has a set for each nonterminal of a sequence. -/
def Covers (first : SetMap) (l : List Symbol) : Prop :=
  ∀ A ∈ l, A.isNonterminal → A ∈ first.keys

instance (first : SetMap) (l : List Symbol) : Decidable (first.Covers l) :=
  inferInstanceAs (Decidable (∀ A ∈ l, A.isNonterminal → A ∈ first.keys))

theorem covers_append : first.Covers (l ++ k) ↔ first.Covers l ∧ first.Covers k :=
  List.forall_mem_append

theorem Covers.exists_firstOfSequence (h : first.Covers l) :
    ∃ S, first.firstOfSequence l = .ok S := by
  cases hl : first.firstOfSequence l with
  | ok S => exact ⟨S, rfl⟩
  | error e =>
    obtain ⟨before, A, after, S, rfl, -, -, hn, hA, -⟩ := firstOfSequence_eq_error_iff.1 hl
    exact absurd (h A (by simp) hn) hA

/-! ## The laws of reading -/

/-- Over maps with a set for each nonterminal that is read: FIRST of two
sequences one after the other is FIRST of the former, in which FIRST of
the latter takes the place of ε; FIRST of one symbol is the same whether
it is read as a sequence or not; and larger sets give no less. -/
theorem firstOfSequence_law (first : SetMap) :
    (∀ l k, first.Covers (l ++ k) → ∃ S T,
      first.firstOfSequence l = .ok S ∧ first.firstOfSequence k = .ok T ∧
      first.firstOfSequence (l ++ k) =
        .ok (if .epsilon ∈ S then S.erase .epsilon ∪ T else S)) ∧
    (∀ s, first.Covers [s] → ∃ S,
      first.firstOfSequence [s] = .ok S ∧ first.firstOfSymbol s = .ok S) ∧
    ∀ (larger : SetMap) (l : List Symbol), first.Covers l → larger.Covers l →
      (∀ A ∈ l, A.isNonterminal → first.find A ⊆ larger.find A) → ∃ S S',
        first.firstOfSequence l = .ok S ∧ larger.firstOfSequence l = .ok S' ∧ S ⊆ S' := by
  refine ⟨fun l k h => ?_, fun s h => ?_, fun larger l h h' hle => ?_⟩
  · obtain ⟨hl, hk⟩ := covers_append.1 h
    obtain ⟨S, hS⟩ := hl.exists_firstOfSequence
    obtain ⟨T, hT⟩ := hk.exists_firstOfSequence
    refine ⟨S, T, hS, hT, ?_⟩
    rw [firstOfSequence_append, hS, hT]
    show S.followedBy (.ok T) = _
    split
    · next hε => exact SymbolSet.followedBy_of_mem hε
    · next hε => exact SymbolSet.followedBy_of_not_mem hε
  · obtain ⟨S, hS⟩ := h.exists_firstOfSequence
    exact ⟨S, hS, (firstOfSequence_singleton first s).symm.trans hS⟩
  · obtain ⟨S, hS⟩ := h.exists_firstOfSequence
    obtain ⟨S', hS'⟩ := h'.exists_firstOfSequence
    refine ⟨S, S', hS, hS', ?_⟩
    rw [← firstOfSequence_eq_ok hS, ← firstOfSequence_eq_ok hS']
    exact firstOfSequence_mono hle

/-- An ε inside the sequence, a terminal of two letters at its end, and
a larger map in which the scan goes on where it was left. -/
theorem firstOfSequence_law_of_inner_epsilon :
    ∃ first larger : SetMap,
      first.firstOfSequence ([.single 'A', .epsilon] ++ [.single 'B', ⟨"id"⟩]) =
        .ok (.ofList [.single 'a', .single 'b']) ∧
      first.firstOfSymbol (.single 'A') = .ok (.ofList [.single 'a', .epsilon]) ∧
      ∃ S, larger.firstOfSequence [.single 'A', .epsilon, .single 'B', ⟨"id"⟩] = .ok S ∧
        .single 'a' ∈ S ∧ .single 'b' ∈ S ∧ ⟨"id"⟩ ∈ S := by
  let first : SetMap := .ofList [(.single 'A', .ofList [.single 'a', .epsilon]),
    (.single 'B', .ofList [.single 'b'])]
  let larger : SetMap := .ofList [(.single 'B', .ofList [.epsilon, .single 'b', .single 'c']),
    (.single 'A', .ofList [.single 'a', .epsilon])]
  obtain ⟨happend, hsingle, hmono⟩ := firstOfSequence_law first
  refine ⟨first, larger, ?_, ?_, ?_⟩
  · obtain ⟨S, T, hS, hT, h⟩ := happend [.single 'A', .epsilon] [.single 'B', ⟨"id"⟩] (by decide)
    obtain rfl : .ofList [.single 'a', .epsilon] = S := Except.ok.inj hS
    obtain rfl : .ofList [.single 'b'] = T := Except.ok.inj hT
    exact h
  · obtain ⟨S, hS, hs⟩ := hsingle (.single 'A') (by decide)
    obtain rfl : .ofList [.single 'a', .epsilon] = S := Except.ok.inj hS
    exact hs
  · have hsets : ∀ A ∈ [.single 'A', .epsilon, .single 'B', ⟨"id"⟩], A.isNonterminal →
        ∀ x ∈ (first.find A).toList, x ∈ (larger.find A).toList := by decide
    obtain ⟨S, S', hS, hS', hle⟩ := hmono larger _ (by decide) (by decide) hsets
    obtain rfl : .ofList [.single 'a', .single 'b'] = S := Except.ok.inj hS
    refine ⟨S', hS', hle _ (by decide), hle _ (by decide), ?_⟩
    obtain rfl : _ = S' := Except.ok.inj hS'
    decide

end SetMap

end Predictive
