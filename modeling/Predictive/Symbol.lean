import Predictive.Text.Basic

/-!
# Grammar symbols

A symbol is a piece of text, in a grammar read from lines a single
code point. Its text alone decides what it is: one capital letter A to Z
is a nonterminal, ε is the empty word, and everything else is a
terminal, among them the end marker, which closes every input.

Symbols are ordered by their texts, code point by code point, and the
order is total (`lt_trichotomy`); it is the order in which sets of
symbols are listed.
-/

namespace Predictive

/-- A grammar symbol, known by its text. -/
structure Symbol where
  text : Text
deriving DecidableEq

namespace Symbol

def single (c : CodePoint) : Symbol := ⟨[c]⟩

/-- The empty word, as it is written on a right-hand side. -/
def epsilon : Symbol := single 'ε'

def endMarker : Symbol := single '$'

instance : Inhabited Symbol := ⟨epsilon⟩

/-! ## Kinds -/

/-- A single capital letter of ASCII. -/
def isNonterminal (s : Symbol) : Bool :=
  match s.text with
  | [c] => 'A' ≤ c && c ≤ 'Z'
  | _ => false

/-- Neither a nonterminal nor the empty word. -/
def isTerminal (s : Symbol) : Bool := !s.isNonterminal && s != epsilon

theorem isNonterminal_iff {s : Symbol} :
    s.isNonterminal ↔ ∃ c, s = single c ∧ 'A' ≤ c ∧ c ≤ 'Z' := by
  obtain ⟨t⟩ := s
  match t with
  | [] => simp [isNonterminal, single]
  | [c] => simp [isNonterminal, single]
  | c :: d :: t => simp [isNonterminal, single]

@[simp] theorem isNonterminal_epsilon : epsilon.isNonterminal = false := by decide

@[simp] theorem isNonterminal_endMarker : endMarker.isNonterminal = false := by decide

theorem ne_epsilon_of_isNonterminal {s : Symbol} (h : s.isNonterminal) : s ≠ epsilon := by
  rintro rfl; simp at h

/-- Every symbol is of exactly one of the three kinds. -/
theorem isTerminal_iff {s : Symbol} : s.isTerminal ↔ s.isNonterminal = false ∧ s ≠ epsilon := by
  simp [isTerminal]

/-! ## Order -/

instance : LT Symbol := ⟨fun a b => a.text < b.text⟩

instance : DecidableLT Symbol := fun a b => inferInstanceAs (Decidable (a.text < b.text))

theorem lt_irrefl (a : Symbol) : ¬ a < a := List.lt_irrefl a.text

theorem lt_trans {a b c : Symbol} (h : a < b) (h' : b < c) : a < c :=
  @List.lt_trans _ _ _ a.text _ _ h h'

theorem lt_trichotomy (a b : Symbol) : a < b ∨ a = b ∨ b < a := by
  by_cases h : a < b
  · exact .inl h
  · by_cases h' : b < a
    · exact .inr (.inr h')
    · refine .inr (.inl ?_)
      cases a; cases b
      exact congrArg _ (List.le_antisymm (List.not_lt.1 h') (List.not_lt.1 h))

end Symbol

/-- The texts of symbols one after another. -/
def spell (symbols : List Symbol) : Text := symbols.flatMap Symbol.text

def symbolsOf (t : Text) : List Symbol := t.map Symbol.single

@[simp] theorem spell_nil : spell [] = [] := rfl

@[simp] theorem spell_cons (s : Symbol) (l : List Symbol) : spell (s :: l) = s.text ++ spell l :=
  rfl

@[simp] theorem spell_append (l l' : List Symbol) : spell (l ++ l') = spell l ++ spell l' := by
  simp [spell]

@[simp] theorem spell_symbolsOf (t : Text) : spell (symbolsOf t) = t := by
  induction t <;> simp_all [spell, symbolsOf, Symbol.single]

end Predictive
