import Predictive.Proofs.Text.Lines
import Predictive.Proofs.Tree.Numbering
import Predictive.Tree.Layout

/-!
# Trees over several lines can be read

The printer takes the next pending node from a list, on which each node
stands with its margin and the mark whether it is a last child. By plain
recursion its lines are known beforehand: those of the node's own layout
behind mark and stem, and the margin before all of them. Whatever else is
pending follows (`linesFrom_cons`), so the printer writes the recursive
layout (`layout_eq_layoutForm`), with one line for each node
(`length_layoutForm`).

Where every symbol is a single code point and ends no line, nothing is
lost. The lengths of the lines tell how deep a line stands: a child's
line is shorter than eight code points, and every line below it is not.
So the lines of one child end where the next short line begins
(`eq_of_append_eq`), whatever the symbols are, the signs of the layout
among them (`eq_of_layoutForm_eq`).
-/

namespace Predictive

namespace Tree

variable {ts : List Tree} {t u : Tree} {line : Text}

/-! ## The printer and the recursion -/

/-- The lines of a child below its parent: the first behind a branch
mark, the others behind a stem. -/
def hang (isLast : Bool) : List Text → List Text
  | [] => []
  | line :: more => (branch isLast ++ line) :: more.map (stem isLast ++ ·)

theorem layoutForm_eq (t : Tree) : t.layoutForm = t.label :: layoutForms t.children := by
  obtain ⟨s, b, ts⟩ := t
  rw [layoutForm]
  rfl

theorem layoutForms_cons (t : Tree) (ts : List Tree) :
    layoutForms (t :: ts) = hang ts.isEmpty t.layoutForm ++ layoutForms ts := by
  rw [layoutForms, layoutForm_eq t, hang]

theorem markLast_cons {α : Type} (a : α) (l : List α) :
    markLast (a :: l) = (a, l.isEmpty) :: markLast l := by
  cases l <;> rfl

mutual
theorem linesFrom_cons : ∀ (t : Tree) (margin : Text) (isLast : Bool) (rest : List Pending),
    linesFrom (⟨margin, t, isLast⟩ :: rest) =
      (hang isLast t.layoutForm).map (margin ++ ·) ++ linesFrom rest
  | .node s b ts, margin, isLast, rest => by
    have hbelow := linesFrom_offspring ts (margin ++ stem isLast) rest
    rw [linesFrom, offspring, children, hbelow, layoutForm_eq, hang]
    simp only [children, List.map_cons, List.map_map, Function.comp_def, List.append_assoc,
      List.cons_append]

theorem linesFrom_offspring : ∀ (ts : List Tree) (margin : Text) (rest : List Pending),
    linesFrom ((markLast ts).map (fun (child, isLast) => ⟨margin, child, isLast⟩) ++ rest) =
      (layoutForms ts).map (margin ++ ·) ++ linesFrom rest
  | [], margin, rest => by
    rw [layoutForms]
    rfl
  | t :: ts, margin, rest => by
    rw [markLast_cons, List.map_cons, List.cons_append, linesFrom_cons t,
      linesFrom_offspring ts, layoutForms_cons, List.map_append, List.append_assoc]
end

theorem layout_eq_layoutForm (t : Tree) : t.layout = t.layoutForm := by
  have hbelow := linesFrom_offspring t.children [] []
  rw [List.append_nil, linesFrom, List.append_nil] at hbelow
  rw [layout, offspring, hbelow, layoutForm_eq]
  simp only [List.nil_append, List.map_id']

/-! ## One line for each node -/

theorem length_hang (isLast : Bool) (lines : List Text) :
    (hang isLast lines).length = lines.length := by
  cases lines with
  | nil => rfl
  | cons line more => simp [hang]

mutual
theorem length_layoutForm : ∀ t : Tree, t.layoutForm.length = t.size
  | .node s b ts => by
    rw [layoutForm, List.length_cons, length_layoutForms ts, size, Nat.add_comm]

theorem length_layoutForms : ∀ ts : List Tree, (layoutForms ts).length = sizeAll ts
  | [] => by rw [layoutForms, sizeAll]; rfl
  | t :: ts => by
    rw [layoutForms_cons, List.length_append, length_hang, length_layoutForm t,
      length_layoutForms ts, sizeAll]
end

/-! ## What stands on the lines -/

/-- What marks, stems and brackets are made of. -/
def marks : Text := "`+-| []"

theorem branch_subset (isLast : Bool) : branch isLast ⊆ marks := by cases isLast <;> decide

theorem stem_subset (isLast : Bool) : stem isLast ⊆ marks := by cases isLast <;> decide

section

variable {P : CodePoint → Prop} (hmarks : ∀ c ∈ marks, P c)
include hmarks

theorem forall_mem_hang {isLast : Bool} {lines : List Text}
    (h : ∀ line ∈ lines, ∀ c ∈ line, P c) : ∀ line ∈ hang isLast lines, ∀ c ∈ line, P c := by
  cases lines with
  | nil => exact List.forall_mem_nil _
  | cons line more =>
    obtain ⟨hline, hmore⟩ := List.forall_mem_cons.1 h
    rw [hang, List.forall_mem_cons, List.forall_mem_map]
    constructor
    · exact List.forall_mem_append.2 ⟨fun c hc => hmarks c (branch_subset isLast hc), hline⟩
    · intro line' hline'
      exact List.forall_mem_append.2
        ⟨fun c hc => hmarks c (stem_subset isLast hc), hmore line' hline'⟩

theorem forall_mem_label (h : ∀ c ∈ t.symbol.text, P c) : ∀ c ∈ t.label, P c := by
  rw [label]
  split
  · rw [List.forall_mem_append, List.forall_mem_append]
    exact ⟨⟨List.forall_mem_singleton.2 (hmarks '[' (by decide)), h⟩,
      List.forall_mem_singleton.2 (hmarks ']' (by decide))⟩
  · exact h

mutual
theorem forall_mem_layoutForm : ∀ t : Tree, (∀ u ∈ t.preorder, ∀ c ∈ u.symbol.text, P c) →
    ∀ line ∈ t.layoutForm, ∀ c ∈ line, P c
  | .node s b ts, h => by
    rw [preorder_eq, List.forall_mem_cons] at h
    rw [layoutForm, List.forall_mem_cons]
    exact ⟨forall_mem_label hmarks h.1, forall_mem_layoutForms ts h.2⟩

theorem forall_mem_layoutForms : ∀ ts : List Tree,
    (∀ u ∈ preorderAll ts, ∀ c ∈ u.symbol.text, P c) →
      ∀ line ∈ layoutForms ts, ∀ c ∈ line, P c
  | [], _ => by
    rw [layoutForms]
    exact List.forall_mem_nil _
  | t :: ts, h => by
    rw [preorderAll_cons, List.forall_mem_append] at h
    rw [layoutForms_cons, List.forall_mem_append]
    exact ⟨forall_mem_hang hmarks (forall_mem_layoutForm t h.1), forall_mem_layoutForms ts h.2⟩
end

end

theorem pieces_layoutText (h : ∀ u ∈ t.preorder, .char '\n' ∉ u.symbol.text) :
    Text.pieces '\n' t.layoutText = t.layoutForm := by
  rw [layoutText, layout_eq_layoutForm]
  have hother : ∀ line ∈ t.layoutForm, ∀ c ∈ line, c ≠ .char '\n' :=
    forall_mem_layoutForm (by decide) t fun u hu c hc he => h u hu (he ▸ hc)
  refine List.splitOn_intercalate _ (fun line hline hc => hother line hline _ hc rfl) ?_
  rw [layoutForm_eq]
  exact List.cons_ne_nil _ _

/-! ## Long lines and short lines -/

@[simp] theorem length_branch (isLast : Bool) : (branch isLast).length = 4 := by
  cases isLast <;> rfl

@[simp] theorem length_stem (isLast : Bool) : (stem isLast).length = 4 := by
  cases isLast <;> rfl

/-- Every line of children stands behind a mark or a stem. -/
theorem le_length_of_mem_layoutForms : ∀ {ts : List Tree}, line ∈ layoutForms ts →
    4 ≤ line.length
  | [], h => by
    rw [layoutForms] at h
    cases h
  | t :: ts, h => by
    rw [layoutForms_cons, layoutForm_eq, hang, List.mem_append, List.mem_cons,
      List.mem_map] at h
    obtain (rfl | ⟨line', -, rfl⟩) | h := h
    · simp
    · simp
    · exact le_length_of_mem_layoutForms h

/-- A symbol that is a single code point and ends no line. -/
def IsSign (s : Symbol) : Prop := ∃ c, s = .single c ∧ c ≠ .char '\n'

theorem label_of_single {c : CodePoint} (h : t.symbol = .single c) :
    t.label = if t.isTerminal then [.char '[', c, .char ']'] else [c] := by
  rw [label, h]
  rfl

theorem length_label_lt (h : IsSign t.symbol) : t.label.length < 4 := by
  obtain ⟨c, hc, -⟩ := h
  rw [label_of_single hc]
  split <;> simp

theorem label_inj (ht : IsSign t.symbol) (hu : IsSign u.symbol) (h : t.label = u.label) :
    t.symbol = u.symbol ∧ t.isTerminal = u.isTerminal := by
  obtain ⟨c, hc, -⟩ := ht
  obtain ⟨d, hd, -⟩ := hu
  rw [label_of_single hc, label_of_single hd] at h
  rw [hc, hd]
  revert h
  -- a matched label has three code points, another one has one
  cases t.isTerminal <;> cases u.isTerminal <;> simp [Symbol.single]

/-- The lines of the first child end where the next short line
begins. -/
theorem eq_of_append_eq {below below' after after' : List Text}
    (hbelow : ∀ line ∈ below, 8 ≤ line.length) (hbelow' : ∀ line ∈ below', 8 ≤ line.length)
    (hafter : ∀ line ∈ after.head?, line.length < 8)
    (hafter' : ∀ line ∈ after'.head?, line.length < 8)
    (h : below ++ after = below' ++ after') : below = below' ∧ after = after' := by
  have htake : ∀ below after : List Text, (∀ line ∈ below, 8 ≤ line.length) →
      (∀ line ∈ after.head?, line.length < 8) →
      (below ++ after).takeWhile (8 ≤ ·.length) = below := by
    intro below after hbelow hafter
    rw [List.takeWhile_append_of_pos (fun line hline => decide_eq_true (hbelow line hline))]
    cases after with
    | nil => exact List.append_nil below
    | cons line after =>
      have hshort := hafter line rfl
      rw [List.takeWhile_cons, if_neg (by simpa using hshort), List.append_nil]
  obtain rfl : below = below' := by
    rw [← htake below after hbelow hafter, h, htake below' after' hbelow' hafter']
  exact ⟨rfl, List.append_cancel_left h⟩

/-! ## Reading -/

theorem le_length_of_mem_below {isLast : Bool}
    (h : line ∈ (layoutForms ts).map (stem isLast ++ ·)) : 8 ≤ line.length := by
  obtain ⟨line', hline', rfl⟩ := List.mem_map.1 h
  have hlong := le_length_of_mem_layoutForms hline'
  rw [List.length_append, length_stem]
  omega

theorem length_lt_of_mem_head? (h : ∀ u ∈ preorderAll ts, IsSign u.symbol) :
    ∀ line ∈ (layoutForms ts).head?, line.length < 8 := by
  cases ts with
  | nil =>
    rw [layoutForms]
    exact nofun
  | cons t ts =>
    have hlabel := length_label_lt (h t (by simp [preorder_eq t]))
    rw [layoutForms_cons, layoutForm_eq, hang]
    rintro line ⟨⟩
    rw [List.length_append, length_branch]
    omega

theorem branch_inj : ∀ {b b' : Bool}, branch b = branch b' → b = b' := by decide

mutual
/-- The lines of a tree determine it. -/
theorem eq_of_layoutForm_eq : ∀ t u : Tree, (∀ v ∈ t.preorder, IsSign v.symbol) →
    (∀ v ∈ u.preorder, IsSign v.symbol) → t.layoutForm = u.layoutForm → t = u
  | .node s b ts, .node s' b' us, ht, hu, h => by
    rw [preorder_eq, List.forall_mem_cons] at ht hu
    rw [layoutForm_eq, layoutForm_eq] at h
    obtain ⟨hlabel, hbelow⟩ := List.cons.inj h
    obtain ⟨rfl, rfl⟩ := label_inj ht.1 hu.1 hlabel
    obtain rfl := eq_of_layoutForms_eq ts us ht.2 hu.2 hbelow
    rfl

theorem eq_of_layoutForms_eq : ∀ ts us : List Tree, (∀ v ∈ preorderAll ts, IsSign v.symbol) →
    (∀ v ∈ preorderAll us, IsSign v.symbol) → layoutForms ts = layoutForms us → ts = us
  | [], [], _, _, _ => rfl
  | [], u :: us, _, _, h => by
    rw [layoutForms_cons, layoutForm_eq, layoutForms] at h
    cases h
  | t :: ts, [], _, _, h => by
    rw [layoutForms_cons, layoutForm_eq, layoutForms] at h
    cases h
  | t :: ts, u :: us, ht, hu, h => by
    rw [preorderAll_cons, List.forall_mem_append] at ht hu
    rw [layoutForms_cons, layoutForms_cons, layoutForm_eq t, layoutForm_eq u] at h
    obtain ⟨hline, hrest⟩ := List.cons.inj h
    obtain ⟨hbranch, hlabel⟩ := List.append_inj hline (by rw [length_branch, length_branch])
    obtain ⟨hbelow, hafter⟩ := eq_of_append_eq (fun _ => le_length_of_mem_below)
      (fun _ => le_length_of_mem_below) (length_lt_of_mem_head? ht.2)
      (length_lt_of_mem_head? hu.2) hrest
    rw [← branch_inj hbranch] at hbelow
    have hforms : layoutForms t.children = layoutForms u.children :=
      List.map_injective_iff.2 (fun _ _ => List.append_cancel_left) hbelow
    have htree : t = u := eq_of_layoutForm_eq t u ht.1 hu.1 (by
      rw [layoutForm_eq t, layoutForm_eq u, hlabel, hforms])
    rw [htree, eq_of_layoutForms_eq ts us ht.2 hu.2 hafter]
end

/-! ## The law of layouts -/

/-- A tree is laid out as by plain recursion: its label, and then for each
child the lines of its layout behind a branch mark and a stem, with the
mark and the stem of a last child for the last one. So there is a line for
each node, and the text is cut into these lines where no symbol ends a
line itself. Trees whose symbols are single code points other than the
line end are the same where their texts are. -/
theorem layout_law :
    (∀ t : Tree, t.layout = t.layoutForm ∧ t.layoutText = Text.join "\n" t.layoutForm ∧
      t.layout.length = t.preorder.length ∧
      ((∀ u ∈ t.preorder, .char '\n' ∉ u.symbol.text) →
        Text.pieces '\n' t.layoutText = t.layout)) ∧
    ∀ t u : Tree, (∀ v ∈ t.preorder, ∃ c, v.symbol = .single c ∧ c ≠ .char '\n') →
      (∀ v ∈ u.preorder, ∃ c, v.symbol = .single c ∧ c ≠ .char '\n') →
      t.layoutText = u.layoutText → t = u := by
  constructor
  · intro t
    have hlayout := layout_eq_layoutForm t
    refine ⟨hlayout, ?_, ?_, fun h => ?_⟩
    · rw [layoutText, hlayout]
    · rw [hlayout, length_layoutForm, length_preorder]
    · rw [hlayout, pieces_layoutText h]
  · intro t u ht hu h
    have hbreak : ∀ t : Tree, (∀ v ∈ t.preorder, IsSign v.symbol) →
        ∀ v ∈ t.preorder, .char '\n' ∉ v.symbol.text := by
      intro t ht v hv
      obtain ⟨c, hc, hne⟩ := ht v hv
      rw [hc]
      exact fun hmem => hne (List.mem_singleton.1 hmem).symm
    have hpieces := congrArg (Text.pieces '\n') h
    rw [pieces_layoutText (hbreak t ht), pieces_layoutText (hbreak u hu)] at hpieces
    exact eq_of_layoutForm_eq t u ht hu hpieces

/-- Two trees over signs that layouts are drawn with, which differ in the
parent of a node. -/
theorem layout_law_of_signs :
    ∃ t u : Tree, (∀ v ∈ t.preorder, ∃ c, v.symbol = .single c ∧ c ≠ .char '\n') ∧
      (∀ v ∈ u.preorder, ∃ c, v.symbol = .single c ∧ c ≠ .char '\n') ∧
      Text.pieces '\n' t.layoutText = ["+", "+-- |", "|   `-- [`]", "`-- ["] ∧
      Text.pieces '\n' u.layoutText = ["+", "+-- |", "+-- [`]", "`-- ["] ∧
      t.layoutText ≠ u.layoutText := by
  let t : Tree := .node (.single '+') false
    [.node (.single '|') false [.matched (.single '`')], .bare (.single '[')]
  let u : Tree := .node (.single '+') false
    [.bare (.single '|'), .matched (.single '`'), .bare (.single '[')]
  have hsigns : ∀ v ∈ t.preorder ++ u.preorder, ∃ c, v.symbol = .single c ∧ c ≠ .char '\n' := by
    have hamong : ∀ v ∈ t.preorder ++ u.preorder,
        v.symbol ∈ ("+|`[" : Text).map Symbol.single := by decide +kernel
    intro v hv
    obtain ⟨c, hc, he⟩ := List.mem_map.1 (hamong v hv)
    exact ⟨c, he.symm, fun hbreak => absurd (hbreak ▸ hc) (by decide)⟩
  obtain ⟨ht, hu⟩ := List.forall_mem_append.1 hsigns
  obtain ⟨hlayout, hinjective⟩ := layout_law
  obtain ⟨htlayout, -, -, htpieces⟩ := hlayout t
  obtain ⟨hulayout, -, -, hupieces⟩ := hlayout u
  refine ⟨t, u, ht, hu, ?_, ?_, fun h => absurd (hinjective t u ht hu h) (by decide +kernel)⟩
  · rw [htpieces (by decide +kernel), htlayout]
    decide +kernel
  · rw [hupieces (by decide +kernel), hulayout]
    decide +kernel

end Tree

end Predictive
