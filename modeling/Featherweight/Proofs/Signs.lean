import Featherweight.Proofs.Lockstep
import Featherweight.Proofs.Parsed
import Featherweight.Proofs.Range

/-!
# Featherweight.Proofs.Signs

A minus sign in front of a literal means what it means anywhere else.

* `Parser.subtracting` lowers every minus sign to a subtraction from zero, and `subtractingTree?` is
  the tree of a text that comes of it.
* `Expr.Unfolds a b` : `b` is `a` with the minus signs of integer literals written out in this way.
  `Expr.Signs` : two trees are the same but for this.
* `eval_signs` : such trees are evaluated alike.
* `minus_signs_folded` : so are the tree that the parser returns and the one of `subtractingTree?`.
-/

namespace Featherweight

/-! ## Integers with signs -/

namespace Expr

/-- The integer `n` at `pos` as a literal, or with a minus sign at `pos` in front. -/
inductive SignedInt : Int → Option Pos → Expr → Prop where
  | literal (n : Int) (pos : Option Pos) : SignedInt n pos (.literal (.int n) pos)
  | minus {n : Int} {e : Expr} {place : Option Pos} (pos : Option Pos) : SignedInt n place e →
      SignedInt (-n) pos (.binary .sub (.literal (.int 0) none) e pos)

theorem SignedInt.pos? {n : Int} {pos : Option Pos} {e : Expr} (h : SignedInt n pos e) :
    e.pos? = pos := by
  cases h <;> rfl

theorem SignedInt.leaves {n : Int} {pos : Option Pos} {e : Expr} (h : SignedInt n pos e) :
    e.leaves = [e] := by
  cases h <;> rfl

/-- With its signs it is evaluated to the integer, as no sign leads out of the range of literals. -/
theorem SignedInt.yields {n : Int} {pos : Option Pos} {e : Expr} (h : SignedInt n pos e)
    (hn : -maxInt ≤ n ∧ n ≤ maxInt) : ∃ depth, e.Yields depth (.int n) := by
  induction h with
  | literal n pos => exact ⟨4, yields_literal _ _ 0⟩
  | @minus n e place pos _ ih =>
    obtain ⟨depth, hdepth⟩ := ih (by omega)
    have hwrap : wrap (0 - n) = -n := by
      rw [Int.zero_sub]
      apply wrap_of_inRange
      simp only [minInt, maxInt] at hn ⊢
      omega
    -- Both parts have a frame more than they need.
    refine ⟨depth + 3 + 4, (yields_literal (.int 0) none depth).binary .sub
      (hdepth.deeper (by omega)) pos ?_⟩
    rw [← hwrap]
    rfl

/-! ## Trees with other signs -/

inductive Unfolds : Expr → Expr → Prop where
  | int {n : Int} {pos : Option Pos} {e : Expr} : SignedInt n pos e →
      Unfolds (.literal (.int n) pos) e
  | node {a b : Expr} : a.Parallel Unfolds b → Unfolds a b

theorem Unfolds.pos? {a b : Expr} (h : a.Unfolds b) : b.pos? = a.pos? := by
  cases h with
  | int h => exact h.pos?
  | node h => exact h.pos?

/-- The same tree, or one is the other with signs written out. -/
def Signs (a b : Expr) : Prop :=
  a = b ∨ (a.Plain ∧ a.Unfolds b) ∨ (b.Plain ∧ b.Unfolds a)

theorem Signs.refl (e : Expr) : e.Signs e := .inl rfl

theorem Signs.symm {a b : Expr} (h : a.Signs b) : b.Signs a := h.imp Eq.symm Or.symm

/-- Written out, a node is as it was or an integer with signs. -/
theorem Unfolds.cases {a b : Expr} (ha : a.Plain) (h : a.Unfolds b) :
    a.Parallel Signs b ∨
      ∃ n pos, (-maxInt ≤ n ∧ n ≤ maxInt) ∧ SignedInt n pos a ∧ SignedInt n pos b := by
  cases h with
  | @int n pos e hnum => exact .inr ⟨n, pos, ha.2, .literal n pos, hnum⟩
  | node hpar => exact .inl (hpar.imp_all (fun _ _ hab ha => .inr (.inl ⟨ha, hab⟩)) ha)

theorem Signs.cases {a b : Expr} (h : a.Signs b) :
    a.Parallel Signs b ∨
      ∃ n pos, (-maxInt ≤ n ∧ n ≤ maxInt) ∧ SignedInt n pos a ∧ SignedInt n pos b := by
  rcases h with rfl | ⟨ha, hab⟩ | ⟨hb, hba⟩
  · exact .inl (.refl .refl a)
  · exact hab.cases ha
  · rcases hba.cases hb with hpar | ⟨n, pos, hn, hb, ha⟩
    · exact .inl (hpar.symm fun _ _ => .symm)
    · exact .inr ⟨n, pos, hn, ha, hb⟩

theorem Signs.leaves {a b : Expr} (h : a.Signs b) : List.Forall₂ Signs a.leaves b.leaves := by
  refine leaves_parallel (fun a b h => ?_) h
  rcases h.cases with hpar | ⟨n, pos, -, ha, hb⟩
  · exact .inl hpar
  · exact .inr ⟨ha.leaves, hb.leaves⟩

end Expr

open Eval in
/-- Trees with other signs follow each other. -/
theorem eval_signs (rounds depth : Nat) {e e' : Expr} (h : e.Signs e') (f : FrameId) :
    Follows Expr.Signs Eq (Value.Parallel Expr.Signs) (eval rounds depth e f) fun k =>
      eval rounds k e' f := by
  induction depth using depth_induction generalizing e e' f with
  | short depth hd =>
    rw [eval_of_lt hd]
    exact follows_limit _
  | node depth inner ih =>
    rcases h.cases with hpar | ⟨n, pos, hn, he, he'⟩
    · apply Follows.of_add 4
      simp only [eval_node]
      have hstep := follows_step rfl (fun a a' f ha => (ih ha f).add 1)
        (fun a a' f ha => inner ha f) hpar h.leaves rounds f
      refine hstep.locate e e' fun p q hpq => ?_
      rw [hpq, place?, place?, hpar.pos?]
    · obtain ⟨k, hk⟩ := he.yields hn
      obtain ⟨k', hk'⟩ := he'.yields hn
      intro w t hw hne
      have hvalue : eval rounds (depth + 4) e f w = (.ok (.int n), w) := by
        rw [← eval_extends (Nat.le_refl rounds) (Nat.le_max_left (depth + 4) k) e f w hne]
        exact hk.deeper (Nat.le_max_right _ _) rounds f w
      rw [hvalue]
      exact ⟨k', (.ok (.int n), t), fun j hj => hk'.deeper hj rounds f t, .ok (.int n), hw⟩

/-! ## Lowering without folding -/

namespace Parser

/-- The meaning of a production, a minus sign being a subtraction from zero whatever follows it. -/
def lowerSubtracting : (p : Production) → Option Pos → Values Part p.rhs → Meaning (.non p.lhs)
  | .negation, _, (minus, e, _) =>
    Expr.binary .sub (.literal (.int 0) none) e.meaning (tokenPos minus.meaning)
  | p, pos, parts => lower p pos parts

def subtracting : Algebra Part where
  leaf t := lowering.leaf t
  node p parts :=
    { lowering.node p parts with
      meaning := lowerSubtracting p ((span? p.rhs parts).map .ofSpan) parts }

end Parser

/-- The tree of a program without folded literals. -/
def subtractingTree? (text : String) : Option Expr :=
  (Parser.scan Parser.subtracting text.toList).toOption.map (·.1.meaning)

/-- Trees are unfolded, and all else is the same. -/
def Meaning.Unfolds : (X : Symbol) → Meaning X → Meaning X → Prop
  | .term _, a, b => a = b
  | .non .program, (a : Expr), (b : Expr) => a.Unfolds b
  | .non .stmt, (a : Expr), (b : Expr) => a.Unfolds b
  | .non .body, (a : Expr), (b : Expr) => a.Unfolds b
  | .non (.exp _), (a : Expr), (b : Expr) => a.Unfolds b
  | .non .stmts, (as : List Expr), (bs : List Expr) => List.Forall₂ Expr.Unfolds as bs
  | .non .args, (as : List Expr), (bs : List Expr) => List.Forall₂ Expr.Unfolds as bs
  | .non .moreArgs, (as : List Expr), (bs : List Expr) => List.Forall₂ Expr.Unfolds as bs
  | .non .params, a, b => a = b
  | .non .moreParams, a, b => a = b

structure Part.Unfolds (X : Symbol) (a b : Part X) : Prop where
  meaning : Meaning.Unfolds X a.meaning b.meaning
  span : b.span = a.span

theorem ValuesAlike.span?_eq {word : List Symbol} {as bs : Values Part word}
    (h : ValuesAlike Part.Unfolds word as bs) : Parser.span? word bs = Parser.span? word as := by
  induction word with
  | nil => rfl
  | cons X word ih =>
    show Span.join? bs.1.span _ = Span.join? as.1.span _
    rw [h.1.span, ih h.2]

namespace Expr

theorem unfolds_literal (v : Value) (pos : Option Pos) (hv : v.Parallel Unfolds v) :
    (literal v pos).Unfolds (.literal v pos) :=
  .node (.literal pos hv)

/-- Statement lists keep the positions of their nodes. -/
theorem unfolds_sequence {as bs : List Expr} (h : List.Forall₂ Unfolds as bs) (pos : Option Pos) :
    (sequence as.reverse pos).Unfolds (sequence bs.reverse pos) := by
  have hrev := List.rel_reverse h
  generalize as.reverse = as at hrev
  generalize bs.reverse = bs at hrev
  cases hrev with
  | nil => exact unfolds_literal .null pos .null
  | @cons a b as bs hab htail =>
    rw [sequence, sequence]
    clear h
    induction htail generalizing a b with
    | nil => exact hab
    | cons hs _ ih =>
      rw [List.foldl_cons, List.foldl_cons, hab.pos?]
      exact ih (.node (.seq _ hab hs))

theorem negate_cases (minus : Token) (e : Expr) :
    (∃ n pos, e = .literal (.int n) pos) ∨
      Parser.negate minus e =
        .binary .sub (.literal (.int 0) none) e (Parser.tokenPos minus) := by
  cases e with
  | literal v pos =>
    cases v with
    | int n => exact .inl ⟨n, pos, rfl⟩
    | _ => exact .inr rfl
  | _ => exact .inr rfl

theorem Unfolds.of_int {n : Int} {pos : Option Pos} {e : Expr}
    (h : (literal (.int n) pos).Unfolds e) : SignedInt n pos e := by
  cases h with
  | int hnum => exact hnum
  | node hpar =>
    cases hpar with
    | literal _ hv =>
      cases hv with
      | int n => exact .literal n pos

/-- A minus sign is folded in front of an integer literal and is a subtraction elsewhere. -/
theorem unfolds_negate (minus : Token) {a b : Expr} (h : a.Unfolds b) :
    (Parser.negate minus a).Unfolds
      (.binary .sub (.literal (.int 0) none) b (Parser.tokenPos minus)) := by
  rcases negate_cases minus a with ⟨n, pos, rfl⟩ | hneg
  · exact .int (.minus _ h.of_int)
  · rw [hneg]
    exact .node (.binary .sub _ (.int (.literal 0 none)) h)

/-! Names, parameters and positions that come from equal tokens are equal. -/

section Equal

variable {a b : Expr}

theorem Unfolds.declare {x y : String} (hx : x = y) (h : a.Unfolds b) (pos : Option Pos) :
    (declare x a pos).Unfolds (.declare y b pos) :=
  hx ▸ .node (.declare x pos h)

theorem Unfolds.assign {x y : String} (hx : x = y) (h : a.Unfolds b) (pos : Option Pos) :
    (assign x a pos).Unfolds (.assign y b pos) :=
  hx ▸ .node (.assign x pos h)

theorem Unfolds.function {xs ys : List String} (hxs : xs = ys) (h : a.Unfolds b)
    (pos : Option Pos) : (function xs a pos).Unfolds (.function ys b pos) :=
  hxs ▸ .node (.function xs pos h)

theorem Unfolds.binary {c d : Expr} {p q : Option Pos} (op : Op) (h : a.Unfolds b)
    (h' : c.Unfolds d) (hp : p = q) : (binary op a c p).Unfolds (.binary op b d q) :=
  hp ▸ .node (.binary op p h h')

end Equal

end Expr

open Featherweight.Expr in
/-- The two lowerings of a production differ only in signs. -/
theorem Parser.unfolds_lower (p : Production) (pos : Option Pos) {as bs : Values Part p.rhs}
    (h : ValuesAlike Part.Unfolds p.rhs as bs) :
    Meaning.Unfolds (.non p.lhs) (lower p pos as) (lowerSubtracting p pos bs) := by
  cases p with
  | programEmpty => exact unfolds_literal .null none .null
  | programStmts => exact unfolds_sequence h.1.meaning pos
  | stmtsOne => exact .cons h.1.meaning .nil
  | stmtsMore => exact .cons h.2.1.meaning h.1.meaning
  | stmtIfElse =>
    exact .node (.branch pos h.2.2.1.meaning h.2.2.2.2.1.meaning h.2.2.2.2.2.2.1.meaning)
  | stmtIf =>
    exact .node (.branch pos h.2.2.1.meaning h.2.2.2.2.1.meaning (unfolds_literal .null none .null))
  | stmtWhile => exact .node (.loop pos h.2.2.1.meaning h.2.2.2.2.1.meaning)
  | stmtFunction =>
    exact .declare (congrArg Token.text h.2.1.meaning)
      (.function h.2.2.1.meaning h.2.2.2.1.meaning pos) pos
  | stmtEmpty => exact unfolds_literal .null pos .null
  | bodyStmts => exact unfolds_sequence h.2.1.meaning pos
  | bodyEmpty => exact unfolds_literal .null pos .null
  | paramsMore =>
    exact congrArg₂ List.cons (congrArg Token.text h.2.1.meaning)
      (congrArg List.reverse h.2.2.1.meaning)
  | paramsOne => exact congrArg (fun t => [Token.text t]) h.2.1.meaning
  | paramsNone => rfl
  | moreParamsOne => exact congrArg (fun t => [Token.text t]) h.2.1.meaning
  | moreParamsMore =>
    exact congrArg₂ List.cons (congrArg Token.text h.2.2.1.meaning) h.1.meaning
  | argsMore => exact .cons h.1.meaning (List.rel_reverse h.2.1.meaning)
  | argsOne => exact .cons h.1.meaning .nil
  | moreArgsOne => exact .cons h.2.1.meaning .nil
  | moreArgsMore => exact .cons h.2.2.1.meaning h.1.meaning
  | exprVar => exact .declare (congrArg Token.text h.2.1.meaning) h.2.2.2.1.meaning pos
  | exprAssign => exact .assign (congrArg Token.text h.1.meaning) h.2.2.1.meaning pos
  | binary o => exact .binary o h.1.meaning h.2.2.1.meaning (congrArg tokenPos h.2.1.meaning)
  | negation =>
    have hminus : as.1.meaning = bs.1.meaning := h.1.meaning
    show Expr.Unfolds (negate as.1.meaning _) (.binary .sub _ _ (tokenPos bs.1.meaning))
    rw [← hminus]
    exact unfolds_negate as.1.meaning h.2.1.meaning
  | callArgs => exact .node (.call pos h.1.meaning h.2.2.1.meaning)
  | callEmpty => exact .node (.call pos h.1.meaning .nil)
  | atomInt =>
    have htoken : as.1.meaning = bs.1.meaning := h.1.meaning
    show Expr.Unfolds (.literal (.int (Token.digitsValue (Token.text as.1.meaning))) _)
      (.literal (.int (Token.digitsValue (Token.text bs.1.meaning))) (tokenPos bs.1.meaning))
    rw [← htoken]
    exact unfolds_literal _ _ (.int _)
  | atomTrue => exact unfolds_literal _ pos (.bool true)
  | atomFalse => exact unfolds_literal _ pos (.bool false)
  | atomNull => exact unfolds_literal _ pos .null
  | atomPrint => exact .node (.print pos h.2.2.1.meaning)
  | atomName =>
    have htoken : as.1.meaning = bs.1.meaning := h.1.meaning
    show Expr.Unfolds (.var (Token.text as.1.meaning) _)
      (.var (Token.text bs.1.meaning) (tokenPos bs.1.meaning))
    rw [← htoken]
    exact .node (.var _ _)
  | atomFunction => exact .function h.2.1.meaning h.2.2.1.meaning pos
  | atomParen => exact h.2.1.meaning
  | _ => exact h.1.meaning

theorem Parser.lowering_subtracting_alike : Alike lowering subtracting Part.Unfolds where
  leaf _ := ⟨rfl, rfl⟩
  node p as bs h := by
    refine ⟨?_, h.span?_eq⟩
    show Meaning.Unfolds _ (lower p ((span? p.rhs as).map .ofSpan) as)
      (lowerSubtracting p ((span? p.rhs bs).map .ofSpan) bs)
    rw [h.span?_eq]
    exact unfolds_lower p _ h

/-- A text that is read has a tree without folded literals, to which the parser's tree unfolds. -/
theorem exists_subtractingTree {text : String} {e : Expr} (h : parse text = .ok e) :
    ∃ plain, subtractingTree? text = some plain ∧ e.Unfolds plain := by
  obtain ⟨tokens, hp⟩ := parse_eq_ok.1 h
  obtain ⟨part, hscan, rfl⟩ := Parser.scan_of_parseTokens hp
  have halike := Parser.scan_alike Parser.lowering_subtracting_alike text.toList
  rw [hscan] at halike
  obtain ⟨part', hscan', hunfolds⟩ := halike.of_ok
  refine ⟨part'.meaning, ?_, hunfolds.meaning⟩
  rw [subtractingTree?, hscan']
  rfl

/-! ## The law -/

/-- Take a text that can be read, its tree, and its tree with every minus sign as a subtraction from
zero. In any world the one is evaluated within some limits if and only if the other is. Then both
have the same value, or the same error at the same position; they print the same, and leave stores
that are the same but for signs in the bodies of closures. -/
theorem minus_signs_folded {text : String} {e : Expr} (h : parse text = .ok e) :
    ∃ plain, subtractingTree? text = some plain ∧ ∀ rounds f w,
      ((∃ depth, (eval rounds depth e f w).1 ≠ .error .limit) ↔
        ∃ depth, (eval rounds depth plain f w).1 ≠ .error .limit) ∧
      ∀ depth depth', (eval rounds depth e f w).1 ≠ .error .limit →
        (eval rounds depth' plain f w).1 ≠ .error .limit →
        Eval.Answers Eq (Value.Parallel Expr.Signs) (eval rounds depth e f w).1
          (eval rounds depth' plain f w).1 ∧
        (eval rounds depth e f w).2.Parallel Expr.Signs (eval rounds depth' plain f w).2 ∧
        (eval rounds depth e f w).2.log.map (fun p => (p.1, p.2.display)) =
          (eval rounds depth' plain f w).2.log.map fun p => (p.1, p.2.display) := by
  obtain ⟨plain, htree, hunfolds⟩ := exists_subtractingTree h
  refine ⟨plain, htree, fun rounds f w => ?_⟩
  have hsigns : e.Signs plain := .inr (.inl ⟨parse_plain h, hunfolds⟩)
  have hw : w.Parallel Expr.Signs w := World.parallel_self fun _ _ _ v _ _ => .refl .refl v
  refine ⟨⟨?_, ?_⟩, fun depth depth' hne hne' => ?_⟩
  · rintro ⟨depth, hne⟩
    exact (eval_signs rounds depth hsigns f).ne_limit hw hne
  · rintro ⟨depth, hne⟩
    exact (eval_signs rounds depth hsigns.symm f).ne_limit hw hne
  · obtain ⟨hans, hpar⟩ := (eval_signs rounds depth hsigns f).agree hw hne hne'
    exact ⟨hans, hpar, hpar.displayed⟩

/-- The negation of a call of the number `-5`, which stands in the tree as `callee`. -/
def negatedCall (callee : Expr) : Expr :=
  .binary .sub (.literal (.int 0) none) (.call callee [] (some ⟨some 1, some 2, some 1, some 8⟩))
    (some ⟨some 1, some 1, some 1, some 2⟩)

theorem minus_signs_folded_call :
    let folded := negatedCall (.literal (.int (-5)) (some ⟨some 1, some 3, some 1, some 4⟩))
    let plain := negatedCall (.binary .sub (.literal (.int 0) none)
      (.literal (.int 5) (some ⟨some 1, some 4, some 1, some 5⟩))
      (some ⟨some 1, some 3, some 1, some 4⟩))
    parse "-(-5)();" = .ok folded ∧ subtractingTree? "-(-5)();" = some plain ∧
      ∀ rounds f w, (∃ depth, (eval rounds depth plain f w).1 ≠ .error .limit) ∧
        Eval.Answers Eq (Value.Parallel Expr.Signs) (eval rounds 10 folded f w).1
          (eval rounds 13 plain f w).1 ∧
        (eval rounds 10 folded f w).2.Parallel Expr.Signs (eval rounds 13 plain f w).2 := by
  intro folded plain
  have hparse : parse "-(-5)();" = .ok folded := rfl
  have hplain : subtractingTree? "-(-5)();" = some plain := rfl
  obtain ⟨tree, htree, hruns⟩ := minus_signs_folded hparse
  obtain rfl : plain = tree := Option.some.inj (hplain.symm.trans htree)
  refine ⟨hparse, hplain, fun rounds f w => ?_⟩
  obtain ⟨hlimits, hsame⟩ := hruns rounds f w
  have hfolded : (eval rounds 10 folded f w).1 ≠ .error .limit := by
    intro h
    cases h
  have hne : (eval rounds 13 plain f w).1 ≠ .error .limit := by
    intro h
    cases h
  obtain ⟨hanswers, hparallel, -⟩ := hsame 10 13 hfolded hne
  exact ⟨hlimits.1 ⟨10, hfolded⟩, hanswers, hparallel⟩

end Featherweight
