import Mathlib.Data.List.TakeWhile
import Predictive.Tree.DotReader

/-!
# The tokens of DOT graphs

The lines that the printer writes for a visit give the tokens that they
should, and leave nothing begun (`Gives`), so the tokens of all lines are
those of the single ones (`gives_visitLines`). A number is bare and ends at
the sign behind it (`gives_ofNat`). For a label of one code point there
are three ways: it is bare as well, it stands between double quotes, or
it is a double quote itself and stands behind a backslash
(`gives_label`). Only a backslash has none: the quote that should end its
label stands behind it.

Where this happens the rest of the text is read inside the label, which
begins with a double quote and keeps it to its end
(`exists_of_feed_quoted`).
-/

namespace Predictive

namespace Dot

variable {t t' : Text} {ts us : List Token} {c : CodePoint}

/-! ## Reading tokens -/

theorem feed_cons {m m' : Mode} (h : step m c = some (ts, m')) (t : Text) :
    feed m (c :: t) = (feed m' t).map (behind ts) := by
  rw [feed, h]
  rfl

theorem behind_nil : behind [] = id := rfl

theorem behind_comp (ts us : List Token) : behind ts ∘ behind us = behind (ts ++ us) :=
  funext fun r => by simp [behind]

theorem feed_append (m : Mode) (t t' : Text) :
    feed m (t ++ t') = (feed m t).bind fun r => (feed r.2 t').map (behind r.1) := by
  induction t generalizing m with
  | nil => simp [feed, behind_nil]
  | cons c t ih =>
    cases hstep : step m c with
    | none => rw [List.cons_append, feed, feed, hstep]; rfl
    | some r =>
      rw [List.cons_append, feed_cons hstep, feed_cons hstep, ih]
      cases feed r.2 t with
      | none => rfl
      | some q =>
        rw [Option.bind_some, Option.map_some, Option.bind_some, Option.map_map, behind_comp]
        rfl

/-- A text gives tokens and leaves nothing begun. -/
def Gives (t : Text) (ts : List Token) : Prop := feed .between t = some (ts, .between)

instance : Decidable (Gives t ts) := inferInstanceAs (Decidable (_ = _))

theorem Gives.feed_append (h : Gives t ts) (t' : Text) :
    feed .between (t ++ t') = (feed .between t').map (behind ts) := by
  rw [Dot.feed_append, h]
  rfl

theorem Gives.append (h : Gives t ts) (h' : Gives t' us) : Gives (t ++ t') (ts ++ us) := by
  rw [Gives, h.feed_append, h']
  rfl

theorem feed_bare {w : Text} (hw : ∀ c ∈ w, isBareChar c) (begun : Text) :
    feed (.bare begun) w = some ([], .bare (w.reverse ++ begun)) := by
  induction w generalizing begun with
  | nil => rfl
  | cons c w ih =>
    obtain ⟨hc, hw⟩ := List.forall_mem_cons.1 hw
    have hstep : step (.bare begun) c = some ([], .bare (c :: begun)) := if_pos hc
    rw [feed_cons hstep, ih hw]
    simp [behind]

theorem gives_bare {w : Text} (hne : w ≠ []) (hw : ∀ c ∈ w, isBareChar c)
    (hbehind : start c = some (ts, .between)) (hc : ¬ isBareChar c) :
    Gives (w ++ [c]) (.bare w :: ts) := by
  obtain ⟨d, w, rfl⟩ := List.exists_cons_of_ne_nil hne
  obtain ⟨hd, hw⟩ := List.forall_mem_cons.1 hw
  have hfirst : step .between d = some ([], .bare [d]) := if_pos hd
  have hlast : step (.bare (w.reverse ++ [d])) c = some (.bare (d :: w) :: ts, .between) := by
    rw [step, if_neg hc, hbehind]
    simp
  rw [Gives, List.cons_append, feed_cons hfirst, Dot.feed_append, feed_bare hw]
  simp [feed, hlast, behind]

/-! ## Numbers -/

theorem isDigit_of_mem_ofNat {n : Nat} (h : c ∈ Text.ofNat n) : Text.isDigit c := by
  obtain ⟨d, hd, rfl⟩ := List.mem_map.1 h
  have hdigit : 0x30 ≤ d.toNat ∧ d.toNat ≤ 0x39 := by
    simpa [Char.isDigit, UInt32.le_iff_toNat_le] using
      Nat.isDigit_of_mem_toDigits (by decide) (by decide) hd
  rw [Text.isDigit, Bool.and_eq_true, decide_eq_true_iff, decide_eq_true_iff]
  exact hdigit

theorem ofNat_ne_nil (n : Nat) : Text.ofNat n ≠ [] := by
  rw [Text.ofNat, Text.digits, Ne, List.map_eq_nil_iff]
  exact Nat.toDigits_ne_nil

theorem isNumeral_of_isDigit {w : Text} (hne : w ≠ []) (hw : ∀ c ∈ w, Text.isDigit c) :
    isNumeral w := by
  obtain ⟨c, w, rfl⟩ := List.exists_cons_of_ne_nil hne
  have hminus : c ≠ .char '-' := by
    rintro rfl
    exact absurd (hw _ List.mem_cons_self) (by decide)
  have hc : Text.isDigit c := hw c List.mem_cons_self
  have hdrop : w.dropWhile Text.isDigit = [] :=
    List.dropWhile_eq_nil_iff.2 fun d hd => hw d (List.mem_cons_of_mem _ hd)
  simp [isNumeral, hminus, hc, hdrop]

theorem id?_ofNat (n : Nat) : (Token.bare (Text.ofNat n)).id? = some (Text.ofNat n) := by
  have h := isNumeral_of_isDigit (ofNat_ne_nil n) fun _ => isDigit_of_mem_ofNat
  rw [Token.id?, h]
  rfl

theorem gives_ofNat (n : Nat) (hbehind : start c = some (ts, .between)) (hc : ¬ isBareChar c) :
    Gives (Text.ofNat n ++ [c]) (.bare (Text.ofNat n) :: ts) :=
  gives_bare (ofNat_ne_nil n) (fun d hd => by simp [isBareChar, isDigit_of_mem_ofNat hd]) hbehind hc

/-! ## Labels -/

theorem isNumeral_singleton (c : CodePoint) : isNumeral [c] = Text.isDigit c := by
  by_cases hdigit : Text.isDigit c
  · rw [hdigit]
    exact isNumeral_of_isDigit (List.cons_ne_nil _ _) (by simpa using hdigit)
  · by_cases hminus : c = .char '-'
    · subst hminus
      decide
    · by_cases hpoint : c = .char '.'
      · subst hpoint
        decide
      · simp [isNumeral, hdigit, hminus, hpoint]

theorem contains_words_singleton (c : CodePoint) :
    words.contains (Text.lowercase [c]) = false := by
  rw [Bool.eq_false_iff, Ne, List.contains_iff_mem]
  intro h
  have hlength : ∀ w ∈ words, w.length ≠ 1 := by decide
  exact hlength _ h rfl

theorem isBare_singleton (c : CodePoint) : isBare [c] = (isNameStart c || Text.isDigit c) := by
  by_cases hline : c = .char '\n'
  · subst hline
    decide
  · have hbody : dropLineEnd [c] = [c] := by simp [dropLineEnd, hline]
    have hbracketed : isBracketed [c] = false := by
      by_cases hangle : c = .char '<'
      · subst hangle
        rfl
      · simp [isBracketed, hangle]
    rw [isBare, hbody, hbracketed, isNumeral_singleton, contains_words_singleton]
    simp [isName, Bool.or_comm]

/-- How a label is read. -/
def labelToken (t : Text) : Token := if isBare t then .bare t else .quoted t

theorem id?_labelToken (c : CodePoint) : (labelToken [c]).id? = some [c] := by
  rw [labelToken, isBare_singleton]
  split
  · next hbare =>
    rw [Token.id?, isNumeral_singleton, contains_words_singleton, if_pos]
    simpa [isName, Bool.or_comm] using hbare
  · rfl

/-- Any label of one code point can be read, but a backslash. -/
theorem gives_label (hc : c ≠ .char '\\') : Gives (label [c] ++ " ") [labelToken [c]] := by
  rw [label, labelToken, isBare_singleton]
  by_cases hbare : isNameStart c || Text.isDigit c
  · rw [if_pos hbare, if_pos hbare]
    have hchar : isBareChar c := by rw [isBareChar, hbare, Bool.true_or]
    exact gives_bare (List.cons_ne_nil _ _) (by simpa using hchar) (by decide) (by decide)
  · rw [if_neg hbare, if_neg hbare]
    by_cases hquote : c = .char '"'
    · subst hquote
      decide
    · have hquotable : quotable false [c] = [c] := by simp [quotable, hquote]
      have hinside : step (.quoted []) c = some ([], .quoted [c]) := if_neg hquote
      have hend : step (.quoted [c]) (.char '"') = some ([.quoted [c]], .between) := by
        simp [step, hc]
      have hopen : feed .between "\"" = some ([], .quoted []) := by decide
      rw [hquotable, Gives, List.append_assoc, List.append_assoc, Dot.feed_append, hopen,
        Option.bind_some]
      show (feed (.quoted []) (c :: .char '"' :: [.char ' '])).map _ = _
      rw [feed_cons hinside, feed_cons hend]
      rfl

/-! ## The lines of a visit -/

/-- What the printer says of the look of a node. -/
def look (isTerminal : Bool) : List (Text × Text) :=
  [("fillcolor", if isTerminal then "lightpink" else "lightblue"), ("fontname", "Verdana"),
    ("shape", if isTerminal then "box" else "ellipse"), ("style", "filled")]

def Statement.ofNode (v : Tree.Visit) : Statement :=
  .node (Text.ofNat v.number) (("label", v.node.symbol.text) :: look v.node.isTerminal)

def Statement.ofEdge (v : Tree.Visit) (parent : Tree.Parent) : Statement :=
  .edge (Text.ofNat parent.number) (Text.ofNat v.number)

/-- The statements of a visit. -/
def Statement.ofVisit (v : Tree.Visit) : List Statement :=
  .ofNode v :: (v.parent.map (.ofEdge v)).toList

/-- The tokens before the label of a node. -/
def Token.beforeLabel (v : Tree.Visit) : List Token :=
  [.bare (Text.ofNat v.number), .openBracket, .bare "label", .equals]

/-- The tokens behind the label of a node. -/
def Token.behindLabel (v : Tree.Visit) : List Token :=
  (look v.node.isTerminal).flatMap (fun a => [.bare a.1, .equals, .bare a.2]) ++ [.closeBracket]

def Token.ofEdge (v : Tree.Visit) (parent : Tree.Parent) : List Token :=
  [.bare (Text.ofNat parent.number), .arrow, .bare (Text.ofNat v.number)]

/-- The tokens of a visit, where its label can be read. -/
def Token.ofVisit (v : Tree.Visit) : List Token :=
  beforeLabel v ++ labelToken v.node.symbol.text :: behindLabel v ++
    (v.parent.map (ofEdge v)).toList.flatten

/-- A visit to a node whose label can be read. -/
def IsReadable (v : Tree.Visit) : Prop := ∃ c, v.node.symbol = .single c ∧ c ≠ .char '\\'

/-- The line of a node up to its label. -/
def lineStart (v : Tree.Visit) : Text := "\t" ++ Text.ofNat v.number ++ " [label="

/-- The line of a node from the blank behind its label on. -/
def lineEnd (v : Tree.Visit) : Text :=
  if v.node.isTerminal then "fillcolor=lightpink fontname=Verdana shape=box style=filled]\n"
  else "fillcolor=lightblue fontname=Verdana shape=ellipse style=filled]\n"

variable {v : Tree.Visit}

theorem nodeLine_eq (v : Tree.Visit) :
    nodeLine v ++ "\n" = lineStart v ++ (label v.node.symbol.text ++ " " ++ lineEnd v) := by
  rw [nodeLine, lineStart, lineEnd]
  cases v.node.isTerminal <;> simp [Text.ofString]

theorem gives_lineStart (v : Tree.Visit) : Gives (lineStart v) (Token.beforeLabel v) := by
  have hnumber : Gives (Text.ofNat v.number ++ [.char ' ']) [.bare (Text.ofNat v.number)] :=
    gives_ofNat v.number (by decide) (by decide)
  have hbegin : Gives "\t" [] := by decide
  have hlabel : Gives "[label=" [.openBracket, .bare "label", .equals] := by decide
  have hline := hbegin.append (hnumber.append hlabel)
  rwa [← List.append_assoc, ← List.append_assoc, List.append_assoc _ [CodePoint.char ' ']] at hline

theorem gives_lineEnd (v : Tree.Visit) : Gives (lineEnd v) (Token.behindLabel v) := by
  rw [lineEnd, Token.behindLabel]
  cases v.node.isTerminal <;> decide +kernel

theorem gives_nodeLine (h : IsReadable v) :
    Gives (nodeLine v ++ "\n")
      (Token.beforeLabel v ++ labelToken v.node.symbol.text :: Token.behindLabel v) := by
  obtain ⟨c, hsymbol, hc⟩ := h
  rw [nodeLine_eq, hsymbol]
  exact (gives_lineStart v).append ((gives_label hc).append (gives_lineEnd v))

theorem gives_edgeLine (v : Tree.Visit) :
    Gives (Text.unlines (edgeLine v)) (v.parent.map (Token.ofEdge v)).toList.flatten := by
  rw [edgeLine]
  cases v.parent with
  | none => rfl
  | some p =>
    have hbegin : Gives "\t" [] := by decide
    have htail : Gives (Text.ofNat p.number ++ [.char ' ']) [.bare (Text.ofNat p.number)] :=
      gives_ofNat p.number (by decide) (by decide)
    have harrow : Gives "-> " [.arrow] := by decide
    have hhead : Gives (Text.ofNat v.number ++ [.char '\n']) [.bare (Text.ofNat v.number)] :=
      gives_ofNat v.number (by decide) (by decide)
    have hline := hbegin.append (htail.append (harrow.append hhead))
    simpa [Text.unlines, Text.ofString, Token.ofEdge] using hline

theorem gives_visit (h : IsReadable v) :
    Gives (Text.unlines (nodeLine v :: edgeLine v)) (Token.ofVisit v) :=
  (gives_nodeLine h).append (gives_edgeLine v)

/-- The lines of visits. -/
def visitLines (visits : List Tree.Visit) : Text :=
  Text.unlines (visits.flatMap fun v => nodeLine v :: edgeLine v)

theorem visitLines_append (visits visits' : List Tree.Visit) :
    visitLines (visits ++ visits') = visitLines visits ++ visitLines visits' := by
  simp [visitLines, Text.unlines]

theorem visitLines_cons (v : Tree.Visit) (visits : List Tree.Visit) :
    visitLines (v :: visits) =
      nodeLine v ++ "\n" ++ (Text.unlines (edgeLine v) ++ visitLines visits) := by
  simp [visitLines, Text.unlines]

theorem gives_visitLines {visits : List Tree.Visit} (h : ∀ v ∈ visits, IsReadable v) :
    Gives (visitLines visits) (visits.flatMap Token.ofVisit) := by
  induction visits with
  | nil => rfl
  | cons v visits ih =>
    obtain ⟨hv, hvisits⟩ := List.forall_mem_cons.1 h
    rw [visitLines_cons, ← List.append_assoc, List.flatMap_cons]
    exact (gives_visit hv).append (ih hvisits)

/-! ## Text that is not ended -/

/-- A double quote ends a text, or stands for itself in place of the
backslash before it. -/
theorem step_quote (begun : Text) :
    step (.quoted begun) (.char '"') = some ([.quoted begun.reverse], .between) ∨
      ∃ before, begun = .char '\\' :: before ∧
        step (.quoted begun) (.char '"') = some ([], .quoted (.char '"' :: before)) := by
  by_cases h : ∃ before, begun = .char '\\' :: before
  · obtain ⟨before, rfl⟩ := h
    exact Or.inr ⟨before, rfl, rfl⟩
  · refine Or.inl ?_
    rw [step, if_pos rfl]
    exact fun before heq => h ⟨before, heq⟩

/-- A quoted text that begins with a double quote keeps it. -/
theorem exists_of_feed_quoted (begun : Text)
    (h : feed (.quoted (begun ++ [.char '"'])) t = some (ts, .between)) :
    ∃ w more, ts = .quoted (.char '"' :: w) :: more := by
  induction t generalizing begun with
  | nil => cases h
  | cons c t ih =>
    by_cases hc : c = .char '"'
    · subst hc
      rcases step_quote (begun ++ [.char '"']) with hstep | ⟨before, hbegun, hstep⟩
      · rw [feed_cons hstep] at h
        obtain ⟨⟨more, m⟩, -, heq⟩ := Option.map_eq_some_iff.1 h
        exact ⟨begun.reverse, more, by rw [← (Prod.mk.inj heq).1]; simp⟩
      · -- the backslash was begun later than the quote, which therefore stays
        cases begun with
        | nil => cases hbegun
        | cons d begun =>
          obtain ⟨-, rfl⟩ := List.cons.inj hbegun
          rw [feed_cons hstep, behind_nil, Option.map_id] at h
          exact ih (.char '"' :: begun) h
    · have hstep : step (.quoted (begun ++ [.char '"'])) c =
          some ([], .quoted ((c :: begun) ++ [.char '"'])) := if_neg hc
      rw [feed_cons hstep, behind_nil, Option.map_id] at h
      exact ih (c :: begun) h

end Dot

end Predictive
