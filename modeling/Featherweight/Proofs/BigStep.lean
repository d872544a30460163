import Featherweight.Arith
import Featherweight.Store

/-!
# Featherweight.Proofs.BigStep

The meaning of programs as rules, one group for each kind of node.

* `Operates op x y o` : the operator applied to two values gives the outcome `o`.
* `BindsAll f xs vs s o s'` : binding the names `xs` to `vs` in frame `f`, one after the other.
* `Evaluates e f s out o s'` : the tree `e`, evaluated in frame `f` of the frames `s`, prints `out`,
  has the outcome `o` and leaves the frames `s'`.
* `EvaluatesAll` is the same for arguments from left to right.

An outcome is a value or the cause of an error. The rules know no limits and no positions, and a
sequence is its first part and then its second.
-/

namespace Featherweight

/-- Printed values with the sinks that receive them, the earliest first. -/
abbrev Output : Type := List (Option SinkId × Value)

inductive Operates : Op → Value → Value → Except Cause Value → Prop where
  | leftNotInt {op : Op} {x y : Value} : (∀ n, x ≠ .int n) →
      Operates op x y (.error (.intExpected op x.typeName))
  | rightNotInt {op : Op} {m : Int} {y : Value} : (∀ n, y ≠ .int n) →
      Operates op (.int m) y (.error (.intExpected op y.typeName))
  | zeroDivisor {op : Op} {m : Int} : op = .div ∨ op = .mod →
      Operates op (.int m) (.int 0) (.error (.divisionByZero op))
  | add {m n : Int} : Operates .add (.int m) (.int n) (.ok (.int (wrap (m + n))))
  | sub {m n : Int} : Operates .sub (.int m) (.int n) (.ok (.int (wrap (m - n))))
  | mul {m n : Int} : Operates .mul (.int m) (.int n) (.ok (.int (wrap (m * n))))
  | div {m n : Int} : n ≠ 0 → Operates .div (.int m) (.int n) (.ok (.int (wrap (m.tdiv n))))
  | mod {m n : Int} : n ≠ 0 → Operates .mod (.int m) (.int n) (.ok (.int (m.tmod n)))
  | gt {m n : Int} : Operates .gt (.int m) (.int n) (.ok (.bool (n < m)))
  | ge {m n : Int} : Operates .ge (.int m) (.int n) (.ok (.bool (n ≤ m)))
  | lt {m n : Int} : Operates .lt (.int m) (.int n) (.ok (.bool (m < n)))
  | le {m n : Int} : Operates .le (.int m) (.int n) (.ok (.bool (m ≤ n)))
  | eq {m n : Int} : Operates .eq (.int m) (.int n) (.ok (.bool (m = n)))

inductive BindsAll (f : FrameId) :
    List String → List Value → Store → Except Cause Unit → Store → Prop where
  | nil {s : Store} : BindsAll f [] [] s (.ok ()) s
  | cons {x : String} {xs : List String} {v : Value} {vs : List Value} {s s' : Store}
      {o : Except Cause Unit} : s.binds f x = false → BindsAll f xs vs (s.set f x v) o s' →
      BindsAll f (x :: xs) (v :: vs) s o s'
  | duplicate {x : String} {xs : List String} {v : Value} {vs : List Value} {s : Store} :
      s.binds f x = true → BindsAll f (x :: xs) (v :: vs) s (.error (.duplicate x)) s

/-- The closure that a function expression makes in frame `f`. -/
def Store.newClosure (s : Store) (f : FrameId) (params : List String) (body : Expr) : Value :=
  .closure params body f (((s[f]?).map (·.born)).getD 0)

/-- Count a new closure of frame `f`. -/
def Store.countClosure (s : Store) (f : FrameId) : Store :=
  s.modify f fun frame => { frame with born := frame.born + 1 }

mutual

inductive Evaluates :
    Expr → FrameId → Store → Output → Except Cause Value → Store → Prop where
  | literal {v : Value} {pos : Option Pos} {f : FrameId} {s : Store} :
      Evaluates (.literal v pos) f s [] (.ok v) s
  | var {x : String} {pos : Option Pos} {f : FrameId} {s : Store} :
      Evaluates (.var x pos) f s [] (.ok (s.resolve f x)) s
  | print {a : Expr} {pos : Option Pos} {f : FrameId} {s s' : Store} {out : Output} {v : Value} :
      Evaluates a f s out (.ok v) s' →
      Evaluates (.print a pos) f s (out ++ [(s'.sink? f, v)]) (.ok v) s'
  | printError {a : Expr} {pos : Option Pos} {f : FrameId} {s s' : Store} {out : Output}
      {c : Cause} : Evaluates a f s out (.error c) s' →
      Evaluates (.print a pos) f s out (.error c) s'
  -- Both operands are evaluated before either is looked at.
  | binary {op : Op} {a b : Expr} {pos : Option Pos} {f : FrameId} {s s₁ s₂ : Store}
      {out₁ out₂ : Output} {x y : Value} {o : Except Cause Value} :
      Evaluates a f s out₁ (.ok x) s₁ → Evaluates b f s₁ out₂ (.ok y) s₂ → Operates op x y o →
      Evaluates (.binary op a b pos) f s (out₁ ++ out₂) o s₂
  | binaryLeftError {op : Op} {a b : Expr} {pos : Option Pos} {f : FrameId} {s s' : Store}
      {out : Output} {c : Cause} : Evaluates a f s out (.error c) s' →
      Evaluates (.binary op a b pos) f s out (.error c) s'
  | binaryRightError {op : Op} {a b : Expr} {pos : Option Pos} {f : FrameId} {s s₁ s₂ : Store}
      {out₁ out₂ : Output} {x : Value} {c : Cause} :
      Evaluates a f s out₁ (.ok x) s₁ → Evaluates b f s₁ out₂ (.error c) s₂ →
      Evaluates (.binary op a b pos) f s (out₁ ++ out₂) (.error c) s₂
  | branchTrue {test yes no : Expr} {pos : Option Pos} {f : FrameId} {s s₁ s₂ : Store}
      {out₁ out₂ : Output} {o : Except Cause Value} :
      Evaluates test f s out₁ (.ok (.bool true)) s₁ → Evaluates yes f s₁ out₂ o s₂ →
      Evaluates (.branch test yes no pos) f s (out₁ ++ out₂) o s₂
  | branchFalse {test yes no : Expr} {pos : Option Pos} {f : FrameId} {s s₁ s₂ : Store}
      {out₁ out₂ : Output} {o : Except Cause Value} :
      Evaluates test f s out₁ (.ok (.bool false)) s₁ → Evaluates no f s₁ out₂ o s₂ →
      Evaluates (.branch test yes no pos) f s (out₁ ++ out₂) o s₂
  | branchNotBool {test yes no : Expr} {pos : Option Pos} {f : FrameId} {s s' : Store}
      {out : Output} {v : Value} : Evaluates test f s out (.ok v) s' → (∀ b, v ≠ .bool b) →
      Evaluates (.branch test yes no pos) f s out (.error (.boolExpected .branch v.typeName)) s'
  | branchTestError {test yes no : Expr} {pos : Option Pos} {f : FrameId} {s s' : Store}
      {out : Output} {c : Cause} : Evaluates test f s out (.error c) s' →
      Evaluates (.branch test yes no pos) f s out (.error c) s'
  -- A loop is unrolled: the test, the body, and the same loop again.
  | loopTrue {test body : Expr} {pos : Option Pos} {f : FrameId} {s s₁ s₂ s₃ : Store}
      {out₁ out₂ out₃ : Output} {v : Value} {o : Except Cause Value} :
      Evaluates test f s out₁ (.ok (.bool true)) s₁ → Evaluates body f s₁ out₂ (.ok v) s₂ →
      Evaluates (.loop test body pos) f s₂ out₃ o s₃ →
      Evaluates (.loop test body pos) f s (out₁ ++ (out₂ ++ out₃)) o s₃
  | loopFalse {test body : Expr} {pos : Option Pos} {f : FrameId} {s s' : Store} {out : Output} :
      Evaluates test f s out (.ok (.bool false)) s' →
      Evaluates (.loop test body pos) f s out (.ok .null) s'
  | loopNotBool {test body : Expr} {pos : Option Pos} {f : FrameId} {s s' : Store} {out : Output}
      {v : Value} : Evaluates test f s out (.ok v) s' → (∀ b, v ≠ .bool b) →
      Evaluates (.loop test body pos) f s out (.error (.boolExpected .loop v.typeName)) s'
  | loopTestError {test body : Expr} {pos : Option Pos} {f : FrameId} {s s' : Store}
      {out : Output} {c : Cause} : Evaluates test f s out (.error c) s' →
      Evaluates (.loop test body pos) f s out (.error c) s'
  | loopBodyError {test body : Expr} {pos : Option Pos} {f : FrameId} {s s₁ s₂ : Store}
      {out₁ out₂ : Output} {c : Cause} :
      Evaluates test f s out₁ (.ok (.bool true)) s₁ → Evaluates body f s₁ out₂ (.error c) s₂ →
      Evaluates (.loop test body pos) f s (out₁ ++ out₂) (.error c) s₂
  | seq {a b : Expr} {pos : Option Pos} {f : FrameId} {s s₁ s₂ : Store} {out₁ out₂ : Output}
      {v : Value} {o : Except Cause Value} :
      Evaluates a f s out₁ (.ok v) s₁ → Evaluates b f s₁ out₂ o s₂ →
      Evaluates (.seq a b pos) f s (out₁ ++ out₂) o s₂
  | seqError {a b : Expr} {pos : Option Pos} {f : FrameId} {s s' : Store} {out : Output}
      {c : Cause} : Evaluates a f s out (.error c) s' →
      Evaluates (.seq a b pos) f s out (.error c) s'
  | declare {x : String} {init : Expr} {pos : Option Pos} {f : FrameId} {s s' : Store}
      {out : Output} {v : Value} : Evaluates init f s out (.ok v) s' → s'.binds f x = false →
      Evaluates (.declare x init pos) f s out (.ok ((s'.set f x v).resolve f x)) (s'.set f x v)
  | declareAgain {x : String} {init : Expr} {pos : Option Pos} {f : FrameId} {s s' : Store}
      {out : Output} {v : Value} : Evaluates init f s out (.ok v) s' → s'.binds f x = true →
      Evaluates (.declare x init pos) f s out (.error (.duplicate x)) s'
  | declareError {x : String} {init : Expr} {pos : Option Pos} {f : FrameId} {s s' : Store}
      {out : Output} {c : Cause} : Evaluates init f s out (.error c) s' →
      Evaluates (.declare x init pos) f s out (.error c) s'
  | assign {x : String} {value : Expr} {pos : Option Pos} {f : FrameId} {s s' : Store}
      {out : Output} {v : Value} : Evaluates value f s out (.ok v) s' →
      Evaluates (.assign x value pos) f s out (.ok ((s'.update f x v).resolve f x))
        (s'.update f x v)
  | assignError {x : String} {value : Expr} {pos : Option Pos} {f : FrameId} {s s' : Store}
      {out : Output} {c : Cause} : Evaluates value f s out (.error c) s' →
      Evaluates (.assign x value pos) f s out (.error c) s'
  | function {params : List String} {body : Expr} {pos : Option Pos} {f : FrameId} {s : Store} :
      Evaluates (.function params body pos) f s [] (.ok (s.newClosure f params body))
        (s.countClosure f)
  -- The body runs in a new frame around which is the captured one, whatever frame calls it.
  | call {callee : Expr} {args : List Expr} {pos : Option Pos} {f g : FrameId}
      {s s₁ s₂ s₃ s₄ : Store} {out₁ out₂ out₃ : Output} {params : List String} {body : Expr}
      {serial : Nat} {vs : List Value} {o : Except Cause Value} :
      Evaluates callee f s out₁ (.ok (.closure params body g serial)) s₁ →
      EvaluatesAll args f s₁ out₂ (.ok vs) s₂ → vs.length = params.length →
      BindsAll s₂.size params vs (s₂.push (.fresh (some g) none none)) (.ok ()) s₃ →
      Evaluates body s₂.size s₃ out₃ o s₄ →
      Evaluates (.call callee args pos) f s (out₁ ++ (out₂ ++ out₃)) o s₄
  | callDuplicate {callee : Expr} {args : List Expr} {pos : Option Pos} {f g : FrameId}
      {s s₁ s₂ s₃ : Store} {out₁ out₂ : Output} {params : List String} {body : Expr}
      {serial : Nat} {vs : List Value} {c : Cause} :
      Evaluates callee f s out₁ (.ok (.closure params body g serial)) s₁ →
      EvaluatesAll args f s₁ out₂ (.ok vs) s₂ → vs.length = params.length →
      BindsAll s₂.size params vs (s₂.push (.fresh (some g) none none)) (.error c) s₃ →
      Evaluates (.call callee args pos) f s (out₁ ++ out₂) (.error c) s₃
  | callArity {callee : Expr} {args : List Expr} {pos : Option Pos} {f g : FrameId}
      {s s₁ s₂ : Store} {out₁ out₂ : Output} {params : List String} {body : Expr} {serial : Nat}
      {vs : List Value} : Evaluates callee f s out₁ (.ok (.closure params body g serial)) s₁ →
      EvaluatesAll args f s₁ out₂ (.ok vs) s₂ → vs.length ≠ params.length →
      Evaluates (.call callee args pos) f s (out₁ ++ out₂)
        (.error (.arity params.length vs.length)) s₂
  | callArgsError {callee : Expr} {args : List Expr} {pos : Option Pos} {f g : FrameId}
      {s s₁ s₂ : Store} {out₁ out₂ : Output} {params : List String} {body : Expr} {serial : Nat}
      {c : Cause} : Evaluates callee f s out₁ (.ok (.closure params body g serial)) s₁ →
      EvaluatesAll args f s₁ out₂ (.error c) s₂ →
      Evaluates (.call callee args pos) f s (out₁ ++ out₂) (.error c) s₂
  | callNotFunction {callee : Expr} {args : List Expr} {pos : Option Pos} {f : FrameId}
      {s s' : Store} {out : Output} {v : Value} : Evaluates callee f s out (.ok v) s' →
      (∀ params body g serial, v ≠ .closure params body g serial) →
      Evaluates (.call callee args pos) f s out (.error (.functionExpected v.typeName)) s'
  | callCalleeError {callee : Expr} {args : List Expr} {pos : Option Pos} {f : FrameId}
      {s s' : Store} {out : Output} {c : Cause} : Evaluates callee f s out (.error c) s' →
      Evaluates (.call callee args pos) f s out (.error c) s'
  | blank {f : FrameId} {s : Store} : Evaluates .blank f s [] (.error .blankNode) s
  | host {h : Host} {f : FrameId} {s : Store} :
      Evaluates (.host h) f s [] (.error (.hostNode h)) s

inductive EvaluatesAll :
    List Expr → FrameId → Store → Output → Except Cause (List Value) → Store → Prop where
  | nil {f : FrameId} {s : Store} : EvaluatesAll [] f s [] (.ok []) s
  | cons {e : Expr} {es : List Expr} {f : FrameId} {s s₁ s₂ : Store} {out₁ out₂ : Output}
      {v : Value} {vs : List Value} : Evaluates e f s out₁ (.ok v) s₁ →
      EvaluatesAll es f s₁ out₂ (.ok vs) s₂ →
      EvaluatesAll (e :: es) f s (out₁ ++ out₂) (.ok (v :: vs)) s₂
  | headError {e : Expr} {es : List Expr} {f : FrameId} {s s' : Store} {out : Output}
      {c : Cause} : Evaluates e f s out (.error c) s' →
      EvaluatesAll (e :: es) f s out (.error c) s'
  | tailError {e : Expr} {es : List Expr} {f : FrameId} {s s₁ s₂ : Store} {out₁ out₂ : Output}
      {v : Value} {c : Cause} : Evaluates e f s out₁ (.ok v) s₁ →
      EvaluatesAll es f s₁ out₂ (.error c) s₂ →
      EvaluatesAll (e :: es) f s (out₁ ++ out₂) (.error c) s₂

end

end Featherweight
