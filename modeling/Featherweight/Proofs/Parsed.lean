import Featherweight.Eval
import Featherweight.Proofs.Nodes
import Featherweight.Proofs.Soundness

/-!
# Featherweight.Proofs.Parsed

What the trees of program texts are like.

* `Expr.Placed` : a node at which an evaluation can go wrong knows its line, and has a meaning.
* `Value.Plain` : a literal is null, a truth value or an integer that can be written.
* `parse_plain` : all nodes and literals of a tree that the parser returns are so.
-/

namespace Featherweight

/-- Nodes that only pass on what their parts do need no place. -/
def Expr.Placed : Expr → Prop
  | .binary op a b pos => (Eval.place? (.binary op a b pos)).isSome
  | .branch a b c pos => (Eval.place? (.branch a b c pos)).isSome
  | .loop a b pos => (Eval.place? (.loop a b pos)).isSome
  | .declare x a pos => (Eval.place? (.declare x a pos)).isSome
  | .call f args pos => (Eval.place? (.call f args pos)).isSome
  | .blank | .host _ => False
  | .literal .. | .var .. | .print .. | .seq .. | .assign .. | .function .. => True

def Value.Plain : Value → Prop
  | .null | .bool _ => True
  | .int n => -(Parser.maxLiteral : Int) ≤ n ∧ n ≤ Parser.maxLiteral
  | .closure .. | .host _ => False

abbrev Expr.Plain (e : Expr) : Prop := e.All Expr.Placed Value.Plain

/-- An integer token stands for an integer that can be written; trees are plain. -/
def Meaning.Plain : (X : Symbol) → Meaning X → Prop
  | .term k, (t : Token) => k = .int → Token.digitsValue t.text ≤ Parser.maxLiteral
  | .non .program, (e : Expr) => e.Plain
  | .non .stmt, (e : Expr) => e.Plain
  | .non .body, (e : Expr) => e.Plain
  | .non (.exp _), (e : Expr) => e.Plain
  | .non .stmts, (es : List Expr) => ∀ e ∈ es, e.Plain
  | .non .args, (es : List Expr) => ∀ e ∈ es, e.Plain
  | .non .moreArgs, (es : List Expr) => ∀ e ∈ es, e.Plain
  | .non .params, _ => True
  | .non .moreParams, _ => True

structure Part.Plain {X : Symbol} (part : Part X) : Prop where
  meaning : Meaning.Plain X part.meaning
  span : X ≠ .non .program → part.span.isSome

/-- Every part of a word has a property. -/
def EachPart (P : (X : Symbol) → Part X → Prop) : (word : List Symbol) → Values Part word → Prop
  | [], _ => True
  | X :: word, (part, parts) => P X part ∧ EachPart P word parts

namespace Parser

theorem plain_negate (minus : Token) {e : Expr} (h : e.Plain) : (negate minus e).Plain := by
  have hzero : Expr.Plain (.literal (.int 0) none) := ⟨trivial, by decide, by decide⟩
  cases e with
  | literal v pos =>
    cases v with
    | int n =>
      have hn : Value.Plain (.int n) := h.2
      exact ⟨trivial, Int.neg_le_neg hn.2, Int.neg_le_of_neg_le hn.1⟩
    | _ => exact ⟨rfl, hzero, h⟩
  | _ => exact ⟨rfl, hzero, h⟩

theorem plain_sequence {stmts : List Expr} (h : ∀ s ∈ stmts, s.Plain) (pos : Option Pos) :
    (Expr.sequence stmts.reverse pos).Plain :=
  Expr.all_sequence ⟨trivial, trivial⟩ (fun _ _ _ => trivial) fun s hs => h s (List.mem_reverse.1 hs)

/-- Plain parts make a plain whole, where the stretch of the production is known. -/
theorem plain_lower (p : Production) (span : Span) {parts : Values Part p.rhs}
    (h : EachPart @Part.Plain p.rhs parts) :
    Meaning.Plain (.non p.lhs) (lower p (some (.ofSpan span)) parts) := by
  cases p with
  | programEmpty => exact ⟨trivial, trivial⟩
  | programStmts => exact plain_sequence h.1.meaning _
  | stmtsOne => exact List.forall_mem_singleton.2 h.1.meaning
  | stmtsMore => exact List.forall_mem_cons.2 ⟨h.2.1.meaning, h.1.meaning⟩
  | stmtIfElse =>
    exact ⟨rfl, h.2.2.1.meaning, h.2.2.2.2.1.meaning, h.2.2.2.2.2.2.1.meaning⟩
  | stmtIf => exact ⟨rfl, h.2.2.1.meaning, h.2.2.2.2.1.meaning, trivial, trivial⟩
  | stmtWhile => exact ⟨rfl, h.2.2.1.meaning, h.2.2.2.2.1.meaning⟩
  | stmtFunction => exact ⟨rfl, trivial, h.2.2.2.1.meaning⟩
  | bodyStmts => exact plain_sequence h.2.1.meaning _
  | bodyEmpty => exact ⟨trivial, trivial⟩
  | stmtEmpty => exact ⟨trivial, trivial⟩
  | argsMore =>
    refine List.forall_mem_cons.2 ⟨h.1.meaning, fun e he => ?_⟩
    exact h.2.1.meaning e (List.mem_reverse.1 he)
  | argsOne => exact List.forall_mem_singleton.2 h.1.meaning
  | moreArgsOne => exact List.forall_mem_singleton.2 h.2.1.meaning
  | moreArgsMore => exact List.forall_mem_cons.2 ⟨h.2.2.1.meaning, h.1.meaning⟩
  | exprVar => exact ⟨rfl, h.2.2.2.1.meaning⟩
  | exprAssign => exact ⟨trivial, h.2.2.1.meaning⟩
  | binary o => exact ⟨rfl, h.1.meaning, h.2.2.1.meaning⟩
  | negation => exact plain_negate _ h.2.1.meaning
  | callArgs => exact ⟨rfl, h.1.meaning, (Expr.allIn_iff_forall _).2 h.2.2.1.meaning⟩
  | callEmpty => exact ⟨rfl, h.1.meaning, trivial⟩
  | atomInt =>
    have hle := h.1.meaning rfl
    refine ⟨trivial, ?_, Int.ofNat_le.2 hle⟩
    show -(maxLiteral : Int) ≤ (Token.digitsValue _ : Int)
    omega
  | atomTrue => exact ⟨trivial, trivial⟩
  | atomFalse => exact ⟨trivial, trivial⟩
  | atomNull => exact ⟨trivial, trivial⟩
  | atomPrint => exact ⟨trivial, h.2.2.1.meaning⟩
  | atomName => exact trivial
  | atomFunction => exact ⟨trivial, h.2.2.1.meaning⟩
  | atomParen => exact h.2.1.meaning
  | paramsMore => exact trivial
  | paramsOne => exact trivial
  | paramsNone => exact trivial
  | moreParamsOne => exact trivial
  | moreParamsMore => exact trivial
  | _ => exact h.1.meaning

/-- A production with a symbol on its right side has a stretch. -/
theorem span?_isSome {word : List Symbol} {parts : Values Part word} (h : EachPart @Part.Plain word parts)
    (hne : word ≠ []) (hprog : Symbol.non .program ∉ word) : (span? word parts).isSome := by
  cases word with
  | nil => exact absurd rfl hne
  | cons X word =>
    obtain ⟨span, hspan⟩ := Option.isSome_iff_exists.1
      (h.1.span fun hX => hprog (hX ▸ List.mem_cons_self))
    show (Span.join? parts.1.span _).isSome
    rw [hspan]
    cases span? word parts.2 <;> rfl

end Parser

theorem Laid.spelt {text : List Char} {ls : List Lexeme} (h : Laid text ls) :
    ∀ l ∈ ls, l.Spelt := by
  induction h with
  | nil => simp
  | gap _ _ ih => exact ih
  | token hspelt _ ih => exact List.forall_mem_cons.2 ⟨hspelt, ih⟩

/-- A part has a property if the leaves of its derivation have another. -/
def Part.Given (Q : Lexeme → Prop) (P : (X : Symbol) → Part X → Prop) (X : Symbol) (part : Part X)
    (tree : Tree X) : Prop :=
  (∀ l ∈ tree.yield, Q l) → P X part

theorem ValuesAlike.eachPart {Q : Lexeme → Prop} {P : (X : Symbol) → Part X → Prop}
    {word : List Symbol} {parts : Values Part word} {trees : Values Tree word}
    (h : ValuesAlike (Part.Given Q P) word parts trees)
    (hleaves : ∀ l ∈ (Forest.ofValues word trees).yield, Q l) : EachPart P word parts := by
  induction word with
  | nil => trivial
  | cons X word ih =>
    obtain ⟨hhead, htail⟩ := List.forall_mem_append.1 hleaves
    exact ⟨h.1 hhead, ih h.2 htail⟩

theorem lowering_growing_plain :
    Alike Parser.lowering growing (Part.Given Lexeme.Readable @Part.Plain) where
  leaf t hread := by
    refine ⟨fun hk => ?_, fun _ => rfl⟩
    exact (hread ⟨t.kind, t.text⟩ List.mem_cons_self hk).2
  node p parts trees h hread := by
    have hparts := h.eachPart hread
    by_cases hp : p = .programEmpty
    · subst hp
      exact ⟨⟨trivial, trivial⟩, fun hne => absurd rfl hne⟩
    · have hspan := Parser.span?_isSome hparts (Production.rhs_ne_nil hp) p.program_not_mem_rhs
      obtain ⟨span, hs⟩ := Option.isSome_iff_exists.1 hspan
      refine ⟨?_, fun _ => hspan⟩
      show Meaning.Plain _ (Parser.lower p ((Parser.span? p.rhs parts).map .ofSpan) parts)
      rw [hs]
      exact Parser.plain_lower p span hparts

/-- What holds of parts along with the derivations that grow beside them holds of the tree of a
program, whose tokens are spelt as the language spells them and can be read. -/
theorem exists_part_of_parse {R : (X : Symbol) → Part X → Tree X → Prop}
    (halike : Alike Parser.lowering growing R) {text : String} {e : Expr} (h : parse text = .ok e) :
    ∃ (part : Part (.non .program)) (d : Tree (.non .program)), part.meaning = e ∧
      R _ part d ∧ (∀ l ∈ d.yield, l.Spelt) ∧ ∀ l ∈ d.yield, l.Readable := by
  obtain ⟨tokens, hp⟩ := parse_eq_ok.1 h
  obtain ⟨d, hgrow, -, hlit, -⟩ := Parser.parseTokens_eq_ok hp
  have hyield := Parser.yield_of_scan hgrow
  have hlaid := (Parser.scan_growing_iff.1 ⟨tokens, hgrow, rfl⟩).laid
  have hscans := Parser.scan_alike halike text.toList
  obtain ⟨part, hscan, hmeaning⟩ := Parser.scan_of_parseTokens hp
  rw [hscan] at hscans
  obtain ⟨d', hgrow', hpart⟩ := hscans.of_ok
  rw [hgrow] at hgrow'
  cases hgrow'
  exact ⟨part, d, hmeaning, hpart, hyield ▸ hlaid.spelt,
    hyield ▸ Parser.literalErrors_eq_none.1 hlit⟩

theorem parse_plain {text : String} {e : Expr} (h : parse text = .ok e) : e.Plain := by
  obtain ⟨part, d, rfl, hplain, -, hread⟩ := exists_part_of_parse lowering_growing_plain h
  exact (hplain hread).meaning

end Featherweight
