import Featherweight.Proofs.Parsed
import Featherweight.Proofs.Sessions
import Mathlib.Logic.Relation

/-!
# Featherweight.Proofs.Blame

Which node an error is about.

* An `Evaluation` is a tree that is evaluated in a frame, from a world. `Evaluation.Starts` : its
  first or a later step is to evaluate another tree.
* `Evaluation.Fails` : its own check goes wrong after all that it started returned.
* `Evaluation.Errs.fails` : an error comes from one evaluation that failed by itself, and is placed
  there if that node has a place, whatever nodes and callers are around it.
* `run_error_placed` : in a program text each error is placed at the node that is to blame.
-/

namespace Featherweight

/-! ## How computations fail -/

namespace Eval

variable {α β : Type} {w w' : World} {c : Cause} {pos : Option Pos} {fault : Fault}

theorem bind_eq_error {m : Eval α} {k : α → Eval β} :
    (m >>= k) w = (.error fault, w') ↔
      m w = (.error fault, w') ∨ ∃ a w₁, m w = (.ok a, w₁) ∧ k a w₁ = (.error fault, w') := by
  rw [bind_apply]
  rcases m w with ⟨r, w₁⟩
  cases r with
  | error fault' => simp
  | ok a =>
    constructor
    · intro h
      exact .inr ⟨a, w₁, rfl, h⟩
    · rintro (h | ⟨b, w₂, hb, h⟩)
      · cases h
      · cases hb
        exact h

theorem locate_eq_error {e : Expr} {m : Eval Value}
    (h : locate e m w = (.error (.error c pos), w')) :
    ∃ pos₀, m w = (.error (.error c pos₀), w') ∧ pos = (pos₀ <|> place? e) := by
  rw [locate] at h
  rcases hm : m w with ⟨r, w₁⟩
  rw [hm] at h
  cases r with
  | ok v => cases h
  | error fault =>
    cases fault with
    | limit => cases h
    | error c₀ pos₀ =>
      cases pos₀ with
      | none =>
        cases h
        exact ⟨none, rfl, rfl⟩
      | some p =>
        cases h
        exact ⟨some p, rfl, rfl⟩

theorem ofExcept_eq_error {r : Except Cause α} (h : ofExcept r w = (.error (.error c pos), w')) :
    r = .error c ∧ pos = none ∧ w' = w := by
  cases r with
  | ok a => cases h
  | error c₀ =>
    cases h
    exact ⟨rfl, rfl, rfl⟩

theorem asBool_eq_error {test : Test} {v : Value}
    (h : asBool test v w = (.error (.error c pos), w')) :
    (∀ b, v ≠ .bool b) ∧ c = .boolExpected test v.typeName ∧ pos = none ∧ w' = w := by
  cases v with
  | bool b => cases h
  | _ =>
    cases h
    exact ⟨nofun, rfl, rfl, rfl⟩

theorem asBool_eq_ok {test : Test} {v : Value} {b : Bool} (h : asBool test v w = (.ok b, w')) :
    v = .bool b ∧ w' = w := by
  cases v with
  | bool b' =>
    cases h
    exact ⟨rfl, rfl⟩
  | _ => cases h

theorem create_eq_error {f : FrameId} {x : String} {v : Value}
    (h : create f x v w = (.error (.error c pos), w')) :
    w.store.binds f x = true ∧ c = .duplicate x ∧ pos = none ∧ w' = w := by
  rw [create] at h
  split at h
  · rename_i hb
    cases h
    exact ⟨hb, rfl, rfl, rfl⟩
  · cases h

/-- Binding parameters fails at a name that is bound already. -/
theorem bindParams_eq_error {f : FrameId} {xs : List String} {vs : List Value}
    (h : bindParams f xs vs w = (.error (.error c pos), w')) :
    ∃ x ∈ xs, c = .duplicate x ∧ pos = none := by
  induction xs generalizing vs w with
  | nil => cases h
  | cons x xs ih =>
    cases vs with
    | nil => cases h
    | cons v vs =>
      rcases bind_eq_error.1 h with h | ⟨_, w₁, -, h⟩
      · obtain ⟨-, hc, hpos, -⟩ := create_eq_error h
        exact ⟨x, by simp, hc, hpos⟩
      · obtain ⟨y, hy, hc, hpos⟩ := ih h
        exact ⟨y, by simp [hy], hc, hpos⟩

theorem runAll_eq_error {run : Expr → Eval Value} {last : Value} {es : List Expr}
    (h : runAll run last es w = (.error fault, w')) :
    ∃ before e behind v w₁, es = before ++ e :: behind ∧
      runAll run last before w = (.ok v, w₁) ∧ run e w₁ = (.error fault, w') := by
  induction es generalizing last w with
  | nil => cases h
  | cons e es ih =>
    rcases bind_eq_error.1 h with h | ⟨v, w₁, he, h⟩
    · exact ⟨[], e, es, last, w, rfl, rfl, h⟩
    · obtain ⟨before, e', behind, v', w₂, rfl, hbefore, h⟩ := ih h
      refine ⟨e :: before, e', behind, v', w₂, rfl, ?_, h⟩
      rw [runAll, bind_apply, he]
      exact hbefore

theorem evalArgs_eq_error {run : Expr → Eval Value} {es : List Expr}
    (h : evalArgs run es w = (.error fault, w')) :
    ∃ before e behind vs w₁, es = before ++ e :: behind ∧
      evalArgs run before w = (.ok vs, w₁) ∧ run e w₁ = (.error fault, w') := by
  induction es generalizing w with
  | nil => cases h
  | cons e es ih =>
    rcases bind_eq_error.1 h with h | ⟨v, w₁, he, h⟩
    · exact ⟨[], e, es, [], w, rfl, rfl, h⟩
    · rcases bind_eq_error.1 h with h | ⟨_, _, _, h⟩
      · obtain ⟨before, e', behind, vs, w₂, rfl, hbefore, h⟩ := ih h
        refine ⟨e :: before, e', behind, v :: vs, w₂, rfl, ?_, h⟩
        rw [evalArgs, bind_apply, he]
        simp only [bind_apply, hbefore, pure_apply]
      · cases h

/-- `k` times the test held and the body returned. -/
inductive GoesRound (test body : Eval Value) : Nat → World → World → Prop where
  | zero {w : World} : GoesRound test body 0 w w
  | succ {k : Nat} {w w₁ w₂ w₃ : World} {v : Value} :
      test w = (.ok (.bool true), w₁) → body w₁ = (.ok v, w₂) → GoesRound test body k w₂ w₃ →
      GoesRound test body (k + 1) w w₃

/-- A loop fails after some rounds in its test, in its body, or because the test is no truth value. -/
theorem whileTrue_eq_error {test body : Eval Value} {n : Nat}
    (h : whileTrue (do asBool .loop (← test)) body n w = (.error (.error c pos), w')) :
    ∃ k w₁, k < n ∧ GoesRound test body k w w₁ ∧
      (test w₁ = (.error (.error c pos), w') ∨
        (∃ w₂, test w₁ = (.ok (.bool true), w₂) ∧ body w₂ = (.error (.error c pos), w')) ∨
        ∃ v, test w₁ = (.ok v, w') ∧ (∀ b, v ≠ .bool b) ∧
          c = .boolExpected .loop v.typeName ∧ pos = none) := by
  induction n generalizing w with
  | zero => cases h
  | succ n ih =>
    rcases bind_eq_error.1 h with h | ⟨b, w₁, ht, h⟩
    · refine ⟨0, w, Nat.succ_pos n, .zero, ?_⟩
      rcases bind_eq_error.1 h with h | ⟨v, w₁, hv, h⟩
      · exact .inl h
      · obtain ⟨hb, hc, hpos, rfl⟩ := asBool_eq_error h
        exact .inr (.inr ⟨v, hv, hb, hc, hpos⟩)
    · have htest : test w = (.ok (.bool b), w₁) := by
        rw [bind_apply] at ht
        rcases hr : test w with ⟨r, w₂⟩
        rw [hr] at ht
        cases r with
        | error _ => cases ht
        | ok v =>
          obtain ⟨rfl, rfl⟩ := asBool_eq_ok ht
          rfl
      cases b with
      | false => cases h
      | true =>
        rcases bind_eq_error.1 h with h | ⟨v, w₂, hbody, h⟩
        · exact ⟨0, w, Nat.succ_pos n, .zero, .inr (.inl ⟨w₁, htest, h⟩)⟩
        · obtain ⟨k, w₃, hk, hround, hcase⟩ := ih h
          exact ⟨k + 1, w₃, Nat.succ_lt_succ hk, .succ htest hbody hround, hcase⟩

end Eval

/-! ## Evaluations -/

/-- A tree with the depth it has room for, the frame it is evaluated in, and the world at the start. -/
structure Evaluation where
  depth : Nat
  tree : Expr
  frame : FrameId
  world : World

namespace Evaluation

open Eval

inductive Starts (rounds : Nat) : Evaluation → Evaluation → Prop where
  | print {d : Nat} {a : Expr} {pos : Option Pos} {f : FrameId} {w : World} :
      Starts rounds ⟨d + 4, .print a pos, f, w⟩ ⟨d + 1, a, f, w⟩
  | left {d : Nat} {op : Op} {a b : Expr} {pos : Option Pos} {f : FrameId} {w : World} :
      Starts rounds ⟨d + 4, .binary op a b pos, f, w⟩ ⟨d + 1, a, f, w⟩
  | right {d : Nat} {op : Op} {a b : Expr} {pos : Option Pos} {f : FrameId} {w w₁ : World}
      {x : Value} : eval rounds (d + 1) a f w = (.ok x, w₁) →
      Starts rounds ⟨d + 4, .binary op a b pos, f, w⟩ ⟨d + 1, b, f, w₁⟩
  | test {d : Nat} {test yes no : Expr} {pos : Option Pos} {f : FrameId} {w : World} :
      Starts rounds ⟨d + 4, .branch test yes no pos, f, w⟩ ⟨d + 1, test, f, w⟩
  | yes {d : Nat} {test yes no : Expr} {pos : Option Pos} {f : FrameId} {w w₁ : World} :
      eval rounds (d + 1) test f w = (.ok (.bool true), w₁) →
      Starts rounds ⟨d + 4, .branch test yes no pos, f, w⟩ ⟨d + 1, yes, f, w₁⟩
  | no {d : Nat} {test yes no : Expr} {pos : Option Pos} {f : FrameId} {w w₁ : World} :
      eval rounds (d + 1) test f w = (.ok (.bool false), w₁) →
      Starts rounds ⟨d + 4, .branch test yes no pos, f, w⟩ ⟨d + 1, no, f, w₁⟩
  | loopTest {d k : Nat} {test body : Expr} {pos : Option Pos} {f : FrameId} {w w₁ : World} :
      k < rounds → GoesRound (eval rounds (d + 1) test f) (eval rounds (d + 1) body f) k w w₁ →
      Starts rounds ⟨d + 4, .loop test body pos, f, w⟩ ⟨d + 1, test, f, w₁⟩
  | loopBody {d k : Nat} {test body : Expr} {pos : Option Pos} {f : FrameId} {w w₁ w₂ : World} :
      k < rounds → GoesRound (eval rounds (d + 1) test f) (eval rounds (d + 1) body f) k w w₁ →
      eval rounds (d + 1) test f w₁ = (.ok (.bool true), w₂) →
      Starts rounds ⟨d + 4, .loop test body pos, f, w⟩ ⟨d + 1, body, f, w₂⟩
  -- The leaves of a sequence are started by the sequence itself, at whatever level they are.
  | stmt {d : Nat} {a b s : Expr} {before behind : List Expr} {pos : Option Pos} {f : FrameId}
      {w w₁ : World} {v : Value} : (Expr.seq a b pos).leaves = before ++ s :: behind →
      runAll (fun s => eval rounds (d + 1) s f) .null before w = (.ok v, w₁) →
      Starts rounds ⟨d + 4, .seq a b pos, f, w⟩ ⟨d + 1, s, f, w₁⟩
  | init {d : Nat} {x : String} {init : Expr} {pos : Option Pos} {f : FrameId} {w : World} :
      Starts rounds ⟨d + 4, .declare x init pos, f, w⟩ ⟨d + 1, init, f, w⟩
  | value {d : Nat} {x : String} {value : Expr} {pos : Option Pos} {f : FrameId} {w : World} :
      Starts rounds ⟨d + 4, .assign x value pos, f, w⟩ ⟨d + 1, value, f, w⟩
  | callee {d : Nat} {callee : Expr} {args : List Expr} {pos : Option Pos} {f : FrameId}
      {w : World} : Starts rounds ⟨d + 4, .call callee args pos, f, w⟩ ⟨d + 1, callee, f, w⟩
  | arg {d : Nat} {callee a : Expr} {before behind : List Expr} {pos : Option Pos} {f g : FrameId}
      {w w₁ w₂ : World} {params : List String} {body : Expr} {i : Nat} {vs : List Value} :
      eval rounds (d + 1) callee f w = (.ok (.closure params body g i), w₁) →
      evalArgs (fun a => eval rounds d a f) before w₁ = (.ok vs, w₂) →
      Starts rounds ⟨d + 4, .call callee (before ++ a :: behind) pos, f, w⟩ ⟨d, a, f, w₂⟩
  -- The body runs in the frame that is made for the call.
  | body {d : Nat} {callee : Expr} {args : List Expr} {pos : Option Pos} {f g : FrameId}
      {w w₁ w₂ w₃ : World} {params : List String} {body : Expr} {i : Nat} {vs : List Value} :
      eval rounds (d + 1) callee f w = (.ok (.closure params body g i), w₁) →
      evalArgs (fun a => eval rounds d a f) args w₁ = (.ok vs, w₂) → vs.length = params.length →
      bindParams w₂.store.size params vs (w₂.push (.fresh (some g) none none)).2 = (.ok (), w₃) →
      Starts rounds ⟨d + 4, .call callee args pos, f, w⟩ ⟨d, body, w₂.store.size, w₃⟩

/-- The last world is the one in which the check went wrong. -/
inductive Fails (rounds : Nat) : Evaluation → Cause → World → Prop where
  | operator {d : Nat} {op : Op} {a b : Expr} {pos : Option Pos} {f : FrameId} {w w₁ w₂ : World}
      {x y : Value} {c : Cause} : eval rounds (d + 1) a f w = (.ok x, w₁) →
      eval rounds (d + 1) b f w₁ = (.ok y, w₂) → op.apply x y = .error c →
      Fails rounds ⟨d + 4, .binary op a b pos, f, w⟩ c w₂
  | branch {d : Nat} {test yes no : Expr} {pos : Option Pos} {f : FrameId} {w w₁ : World}
      {v : Value} : eval rounds (d + 1) test f w = (.ok v, w₁) → (∀ b, v ≠ .bool b) →
      Fails rounds ⟨d + 4, .branch test yes no pos, f, w⟩ (.boolExpected .branch v.typeName) w₁
  | loop {d k : Nat} {test body : Expr} {pos : Option Pos} {f : FrameId} {w w₁ w₂ : World}
      {v : Value} : k < rounds →
      GoesRound (eval rounds (d + 1) test f) (eval rounds (d + 1) body f) k w w₁ →
      eval rounds (d + 1) test f w₁ = (.ok v, w₂) → (∀ b, v ≠ .bool b) →
      Fails rounds ⟨d + 4, .loop test body pos, f, w⟩ (.boolExpected .loop v.typeName) w₂
  | declare {d : Nat} {x : String} {init : Expr} {pos : Option Pos} {f : FrameId} {w w₁ : World}
      {v : Value} : eval rounds (d + 1) init f w = (.ok v, w₁) → w₁.store.binds f x = true →
      Fails rounds ⟨d + 4, .declare x init pos, f, w⟩ (.duplicate x) w₁
  | callee {d : Nat} {callee : Expr} {args : List Expr} {pos : Option Pos} {f : FrameId}
      {w w₁ : World} {v : Value} : eval rounds (d + 1) callee f w = (.ok v, w₁) →
      (∀ params body g i, v ≠ .closure params body g i) →
      Fails rounds ⟨d + 4, .call callee args pos, f, w⟩ (.functionExpected v.typeName) w₁
  | arity {d : Nat} {callee : Expr} {args : List Expr} {pos : Option Pos} {f g : FrameId}
      {w w₁ w₂ : World} {params : List String} {body : Expr} {i : Nat} {vs : List Value} :
      eval rounds (d + 1) callee f w = (.ok (.closure params body g i), w₁) →
      evalArgs (fun a => eval rounds d a f) args w₁ = (.ok vs, w₂) → vs.length ≠ params.length →
      Fails rounds ⟨d + 4, .call callee args pos, f, w⟩ (.arity params.length vs.length) w₂
  | parameter {d : Nat} {callee : Expr} {args : List Expr} {pos : Option Pos} {f g : FrameId}
      {w w₁ w₂ w₃ : World} {params : List String} {body : Expr} {i : Nat} {vs : List Value}
      {x : String} : eval rounds (d + 1) callee f w = (.ok (.closure params body g i), w₁) →
      evalArgs (fun a => eval rounds d a f) args w₁ = (.ok vs, w₂) → vs.length = params.length →
      x ∈ params → bindParams w₂.store.size params vs (w₂.push (.fresh (some g) none none)).2 =
        (.error (.error (.duplicate x) none), w₃) →
      Fails rounds ⟨d + 4, .call callee args pos, f, w⟩ (.duplicate x) w₃
  | blank {d : Nat} {f : FrameId} {w : World} : Fails rounds ⟨d + 4, .blank, f, w⟩ .blankNode w
  | host {d : Nat} {h : Host} {f : FrameId} {w : World} :
      Fails rounds ⟨d + 4, .host h, f, w⟩ (.hostNode h) w

variable {rounds : Nat} {ev : Evaluation} {c : Cause} {pos : Option Pos} {w' : World}

/-- The evaluation ends in an error. -/
def Errs (rounds : Nat) (ev : Evaluation) (c : Cause) (pos : Option Pos) (w' : World) : Prop :=
  eval rounds ev.depth ev.tree ev.frame ev.world = (.error (.error c pos), w')

/-- An error is the evaluation's own, without a place yet, or that of an evaluation it started. -/
theorem Errs.cases (h : ev.Errs rounds c pos w') :
    ∃ pos₀, pos = (pos₀ <|> place? ev.tree) ∧
      ((pos₀ = none ∧ ev.Fails rounds c w') ∨
        ∃ sub, ev.Starts rounds sub ∧ sub.depth < ev.depth ∧ sub.Errs rounds c pos₀ w') := by
  obtain ⟨depth, e, f, w⟩ := ev
  cases depth using depth_induction with
  | short depth hd =>
    rw [Errs, eval_of_lt hd] at h
    cases h
  | node d =>
    have hlt : d + 1 < d + 4 := by omega
    have hlt' : d < d + 4 := by omega
    obtain ⟨pos₀, h, hpos⟩ := locate_eq_error h
    refine ⟨pos₀, hpos, ?_⟩
    cases e with
    | literal v pos => cases h
    | var x pos => cases h
    | function params body pos => cases h
    | blank =>
      cases h
      exact .inl ⟨rfl, .blank⟩
    | host h' =>
      cases h
      exact .inl ⟨rfl, .host⟩
    | print a pos =>
      rcases bind_eq_error.1 h with h | ⟨v, w₁, -, h⟩
      · exact .inr ⟨_, .print, hlt, h⟩
      · cases h
    | binary op a b pos =>
      rcases bind_eq_error.1 h with h | ⟨x, w₁, hx, h⟩
      · exact .inr ⟨_, .left, hlt, h⟩
      · rcases bind_eq_error.1 h with h | ⟨y, w₂, hy, h⟩
        · exact .inr ⟨_, .right hx, hlt, h⟩
        · obtain ⟨happly, hnone, rfl⟩ := ofExcept_eq_error h
          exact .inl ⟨hnone, .operator hx hy happly⟩
    | branch test yes no pos =>
      rcases bind_eq_error.1 h with h | ⟨v, w₁, hv, h⟩
      · exact .inr ⟨_, .test, hlt, h⟩
      · rcases bind_eq_error.1 h with h | ⟨b, w₂, hb, h⟩
        · obtain ⟨hbool, rfl, hnone, rfl⟩ := asBool_eq_error h
          exact .inl ⟨hnone, .branch hv hbool⟩
        · obtain ⟨rfl, rfl⟩ := asBool_eq_ok hb
          cases b with
          | true => exact .inr ⟨_, .yes hv, hlt, h⟩
          | false => exact .inr ⟨_, .no hv, hlt, h⟩
    | loop test body pos =>
      obtain ⟨k, w₁, hk, hround, h | ⟨w₂, ht, h⟩ | ⟨v, hv, hbool, rfl, hnone⟩⟩ :=
        whileTrue_eq_error h
      · exact .inr ⟨_, .loopTest hk hround, hlt, h⟩
      · exact .inr ⟨_, .loopBody hk hround ht, hlt, h⟩
      · exact .inl ⟨hnone, .loop hk hround hv hbool⟩
    | seq a b pos =>
      obtain ⟨before, s, behind, v, w₁, hleaves, hbefore, h⟩ := runAll_eq_error h
      exact .inr ⟨_, .stmt hleaves hbefore, hlt, h⟩
    | declare x init pos =>
      rcases bind_eq_error.1 h with h | ⟨v, w₁, hv, h⟩
      · exact .inr ⟨_, .init, hlt, h⟩
      · rcases bind_eq_error.1 h with h | ⟨_, w₂, -, h⟩
        · obtain ⟨hbinds, rfl, hnone, rfl⟩ := create_eq_error h
          exact .inl ⟨hnone, .declare hv hbinds⟩
        · cases h
    | assign x value pos =>
      rcases bind_eq_error.1 h with h | ⟨v, w₁, -, h⟩
      · exact .inr ⟨_, .value, hlt, h⟩
      · cases h
    | call callee args pos =>
      rcases bind_eq_error.1 h with h | ⟨v, w₁, hv, h⟩
      · exact .inr ⟨_, .callee, hlt, h⟩
      · cases v with
        | closure params body g i =>
          rcases bind_eq_error.1 h with h | ⟨vs, w₂, hvs, h⟩
          · obtain ⟨before, a, behind, us, w₂, rfl, hbefore, h⟩ := evalArgs_eq_error h
            exact .inr ⟨_, .arg hv hbefore, hlt', h⟩
          · rw [callWith] at h
            split at h
            · rename_i hlen
              rcases bind_eq_error.1 h with h | ⟨inner, w₃, hnew, h⟩
              · cases h
              · cases hnew
                rcases bind_eq_error.1 h with h | ⟨_, w₄, hbind, h⟩
                · obtain ⟨x, hx, rfl, rfl⟩ := bindParams_eq_error h
                  exact .inl ⟨rfl, .parameter hv hvs hlen hx h⟩
                · exact .inr ⟨_, .body hv hvs hlen hbind, hlt', h⟩
            · rename_i hlen
              cases h
              exact .inl ⟨rfl, .arity hv hvs hlen⟩
        | _ =>
          cases h
          exact .inl ⟨rfl, .callee hv nofun⟩

/-- An error comes from an evaluation that failed by itself and is placed there, if that node has a
place: the nodes and callers around it leave the place alone. -/
theorem Errs.fails (h : ev.Errs rounds c pos w') :
    ∃ sub, Relation.ReflTransGen (Starts rounds) ev sub ∧ sub.Fails rounds c w' ∧
      ((place? sub.tree).isSome → pos = place? sub.tree) := by
  induction hd : ev.depth using Nat.strong_induction_on generalizing ev pos with
  | _ depth ih =>
    obtain ⟨pos₀, rfl, ⟨rfl, hfail⟩ | ⟨sub, hstart, hlt, herr⟩⟩ := h.cases
    · exact ⟨ev, .refl, hfail, fun _ => rfl⟩
    · obtain ⟨sub', hstarts, hfail, hplace⟩ := ih sub.depth (hd ▸ hlt) herr rfl
      refine ⟨sub', .head hstart hstarts, hfail, fun hsome => ?_⟩
      rw [hplace hsome]
      obtain ⟨p, hp⟩ := Option.isSome_iff_exists.1 hsome
      rw [hp]
      rfl

/-! ## Disciplines and the evaluations that are started -/

structure Obeys (D : Discipline) (ev : Evaluation) : Prop where
  store : D.Obeyed ev.world.store
  code : D.Code ev.world.store.size ev.tree
  frame : D.frame ev.world.store.size ev.frame

variable {D : Discipline}

theorem Obeys.later {d : Nat} {e : Expr} {f : FrameId} {w w₁ : World} (h : D.Leads w w₁)
    (he : D.Code w.store.size e) (hf : D.frame w.store.size f) : Obeys D ⟨d, e, f, w₁⟩ :=
  ⟨h.obeyed, he.mono h.size_le, D.frame_mono h.size_le hf⟩

theorem goesRound_leads {test body : Eval Value} {n k : Nat} {w w₁ : World}
    (ht : Keeps D n D.Admits test) (hb : Keeps D n D.Admits body) (hw : D.Obeyed w.store)
    (hn : n ≤ w.store.size) (h : GoesRound test body k w w₁) : D.Leads w w₁ := by
  induction h with
  | zero => exact .refl hw
  | succ htest hbody _ ih =>
    obtain ⟨hlead, -⟩ := ht.leads hw hn htest
    obtain ⟨hlead', -⟩ := hb.leads hlead.obeyed (Nat.le_trans hn hlead.size_le) hbody
    have hall := hlead.trans hlead'
    exact hall.trans (ih hall.obeyed (Nat.le_trans hn hall.size_le))

/-- A discipline passes on from an evaluation to those that it starts. -/
theorem Obeys.starts {sub : Evaluation} (h : ev.Obeys D) (hs : ev.Starts rounds sub) :
    sub.Obeys D := by
  have hle : ev.world.store.size ≤ ev.world.store.size := Nat.le_refl _
  cases hs with
  | print => exact ⟨h.store, h.code.2, h.frame⟩
  | left => exact ⟨h.store, h.code.2.1, h.frame⟩
  | test => exact ⟨h.store, h.code.2.1, h.frame⟩
  | init => exact ⟨h.store, h.code.2, h.frame⟩
  | value => exact ⟨h.store, h.code.2, h.frame⟩
  | callee => exact ⟨h.store, h.code.2.1, h.frame⟩
  | right hx =>
    obtain ⟨hlead, -⟩ := (eval_keeps _ _ h.code.2.1 h.frame).leads h.store hle hx
    exact .later hlead h.code.2.2 h.frame
  | yes ht =>
    obtain ⟨hlead, -⟩ := (eval_keeps _ _ h.code.2.1 h.frame).leads h.store hle ht
    exact .later hlead h.code.2.2.1 h.frame
  | no ht =>
    obtain ⟨hlead, -⟩ := (eval_keeps _ _ h.code.2.1 h.frame).leads h.store hle ht
    exact .later hlead h.code.2.2.2 h.frame
  | loopTest _ hround =>
    have hlead := goesRound_leads (eval_keeps _ _ h.code.2.1 h.frame)
      (eval_keeps _ _ h.code.2.2 h.frame) h.store hle hround
    exact .later hlead h.code.2.1 h.frame
  | loopBody _ hround ht =>
    have hround := goesRound_leads (eval_keeps _ _ h.code.2.1 h.frame)
      (eval_keeps _ _ h.code.2.2 h.frame) h.store hle hround
    obtain ⟨hlead, -⟩ := (eval_keeps _ _ h.code.2.1 h.frame).leads hround.obeyed hround.size_le ht
    exact .later (hround.trans hlead) h.code.2.2 h.frame
  | @stmt d a b s before behind pos f w w₁ v hleaves hbefore =>
    have hcode : ∀ t ∈ before ++ s :: behind, D.Code w.store.size t := hleaves ▸ h.code.leaves
    obtain ⟨hcode, hrest⟩ := List.forall_mem_append.1 hcode
    obtain ⟨hlead, -⟩ := (keeps_runAll (fun t ht => eval_keeps rounds (d + 1) (hcode t ht) h.frame)
      (Discipline.admits_null _)).leads h.store hle hbefore
    exact .later hlead (hrest s List.mem_cons_self) h.frame
  | @arg d callee a before behind pos f g w w₁ w₂ params body i vs hcallee hbefore =>
    obtain ⟨hlead, -⟩ := (eval_keeps _ _ h.code.2.1 h.frame).leads h.store hle hcallee
    obtain ⟨hcode, hrest⟩ := List.forall_mem_append.1 ((Expr.allIn_iff_forall _).1 h.code.2.2)
    obtain ⟨hlead', -⟩ := (keeps_evalArgs fun a ha => eval_keeps rounds d (hcode a ha) h.frame).leads
      hlead.obeyed hlead.size_le hbefore
    exact .later (hlead.trans hlead') (hrest a List.mem_cons_self) h.frame
  | @body d callee args pos f g w w₁ w₂ w₃ params body i vs hcallee hargs _ hbind =>
    obtain ⟨hlead, hv⟩ := (eval_keeps _ _ h.code.2.1 h.frame).leads h.store hle hcallee
    have hcode := (Expr.allIn_iff_forall _).1 h.code.2.2
    obtain ⟨hlead', hvs⟩ := (keeps_evalArgs fun a ha => eval_keeps rounds d (hcode a ha) h.frame).leads
      hlead.obeyed hlead.size_le hargs
    have hclosure := (hv _ rfl).mono hlead'.size_le
    obtain ⟨hpush, hinner⟩ := (keeps_newFrame (D.closure.1 hclosure.1)).leads hlead'.obeyed
      (Nat.le_refl _) rfl
    have hvs' : ∀ v ∈ vs, D.Admits _ v := fun v hv => (hvs _ rfl v hv).mono hpush.size_le
    obtain ⟨hlead'', -⟩ := (keeps_bindParams (hinner _ rfl) params hvs').leads hpush.obeyed
      (Nat.le_refl _) hbind
    exact .later hlead'' (Discipline.Code.mono hclosure.2 hpush.size_le) (hinner _ rfl)

theorem Obeys.reach {sub : Evaluation} (h : ev.Obeys D)
    (hs : Relation.ReflTransGen (Starts rounds) ev sub) : sub.Obeys D := by
  induction hs with
  | refl => exact h
  | tail _ hstep ih => exact ih.starts hstep

end Evaluation

/-! ## The node to blame -/

/-- Whether a node is of the kind that an error is about. -/
def Expr.Answers : Expr → Cause → Prop
  | .binary op _ _ _, .intExpected op' _ => op = op'
  | .binary op _ _ _, .divisionByZero op' => op = op' ∧ (op = .div ∨ op = .mod)
  | .branch .., .boolExpected .branch _ => True
  | .loop .., .boolExpected .loop _ => True
  | .declare x _ _, .duplicate x' => x = x'
  | .call .., .duplicate _ | .call .., .arity .. | .call .., .functionExpected _ => True
  | _, _ => False

theorem Op.apply_eq_error {op : Op} {x y : Value} {c : Cause} (h : op.apply x y = .error c) :
    (∃ got, c = .intExpected op got) ∨ c = .divisionByZero op ∧ (op = .div ∨ op = .mod) := by
  cases x with
  | int a =>
    cases y with
    | int b =>
      cases op with
      | div =>
        simp only [apply, onInts] at h
        split at h
        · cases h
        · cases h
          exact .inr ⟨rfl, .inl rfl⟩
      | mod =>
        simp only [apply, onInts] at h
        split at h
        · cases h
        · cases h
          exact .inr ⟨rfl, .inr rfl⟩
      | _ => cases h
    | _ =>
      cases h
      exact .inl ⟨_, rfl⟩
  | _ =>
    cases h
    exact .inl ⟨_, rfl⟩

/-- In placed code a node that fails by itself is of the right kind and has a place. -/
theorem Evaluation.Fails.answers {rounds : Nat} {ev : Evaluation} {c : Cause} {w' : World}
    (h : ev.Fails rounds c w') (hplaced : ev.tree.Placed) :
    ev.tree.Answers c ∧ (Eval.place? ev.tree).isSome := by
  cases h with
  | operator _ _ happly =>
    refine ⟨?_, hplaced⟩
    rcases Op.apply_eq_error happly with ⟨got, rfl⟩ | ⟨rfl, hop⟩
    · exact rfl
    · exact ⟨rfl, hop⟩
  | branch => exact ⟨trivial, hplaced⟩
  | loop => exact ⟨trivial, hplaced⟩
  | declare => exact ⟨rfl, hplaced⟩
  | callee => exact ⟨trivial, hplaced⟩
  | arity => exact ⟨trivial, hplaced⟩
  | parameter => exact ⟨trivial, hplaced⟩
  | blank => exact hplaced.elim
  | host => exact hplaced.elim

/-- Code whose nodes are among given ones. -/
def Discipline.coded (N : Expr → Prop) : Discipline :=
  ofFrames N (fun _ _ => True) 0 (fun _ _ _ _ h => h) (fun _ _ => trivial) (fun _ _ _ h => h)

theorem Session.run_eq_error {text : String} {e : Expr} (h : parse text = .ok e) {f : FrameId}
    {sink : Option SinkId} {w w' : World} {c : Cause} {pos : Option Pos}
    (hr : run text f sink w = (.error (.fault (.error c pos)), w')) (hc : c ≠ .tooDeep) :
    evalIn f e (equip f sink (some text) w) = (.error (.error c pos), w') := by
  rw [run, h, evalParsed, evalProgram] at hr
  generalize evalIn f e (equip f sink (some text) w) = result at hr ⊢
  obtain ⟨r, w₁⟩ := result
  cases r with
  | ok v => cases hr
  | error fault =>
    cases fault with
    | error c' pos' =>
      cases hr
      rfl
    | limit =>
      cases hr
      exact absurd rfl hc

/-- An error of a program that is run in a fresh frame, other than that it nests too deeply, has a
place: that of a node of the program which is of the kind the error is about. It is the node whose
own check went wrong, after all that it started returned, and the world is left as it was then. -/
theorem run_error_placed (text : String) (tree : Expr) (own sink : Option SinkId)
    (source : Option String) (c : Cause) (pos : Option Pos) (w : World)
    (hparse : parse text = .ok tree)
    (hrun : Session.run text 0 sink (.fresh own source) = (.error (.fault (.error c pos)), w))
    (hc : c ≠ .tooDeep) :
    ∃ p n, pos = some p ∧ n ∈ tree.nodes ∧ n.pos? = some p ∧ n.Answers c ∧
      ∃ d f w₁, Relation.ReflTransGen (Evaluation.Starts maxRounds)
          ⟨maxDepth, tree, 0, Session.equip 0 sink (some text) (.fresh own source)⟩ ⟨d, n, f, w₁⟩ ∧
        Evaluation.Fails maxRounds ⟨d, n, f, w₁⟩ c w := by
  let ev : Evaluation := ⟨maxDepth, tree, 0, Session.equip 0 sink (some text) (.fresh own source)⟩
  have herr : ev.Errs maxRounds c pos w := Session.run_eq_error hparse hrun hc
  obtain ⟨⟨d, n, f, w₁⟩, hstarts, hfail, hplace⟩ := herr.fails
  -- The code of all closures is code of the program, since there were none at the start.
  have hobeys : ev.Obeys (.coded (· ∈ tree.nodes)) := by
    have hfresh : (Discipline.coded (· ∈ tree.nodes)).Obeyed (World.fresh own source).store := by
      refine ⟨Nat.zero_le _, fun _ _ _ => trivial, fun ha _ hv => ?_⟩
      obtain ⟨-, rfl⟩ := World.fresh_getElem? ha
      cases hv
    refine ⟨(Session.equip_leads hfresh trivial sink (some text)).obeyed, ?_, trivial⟩
    exact Discipline.ofFrames_code.2 ⟨fun _ hn => hn, fun _ _ => trivial⟩
  have hmem : n ∈ tree.nodes := (hobeys.reach hstarts).code.node
  have hplaced : n.Placed := ((Expr.all_iff tree).1 (parse_plain hparse)).1 n hmem
  obtain ⟨hanswers, hsome⟩ := hfail.answers hplaced
  obtain ⟨p, hp⟩ := Option.isSome_iff_exists.1 hsome
  refine ⟨p, n, by rw [hplace hsome, hp], hmem, ?_, hanswers, d, f, w₁, hstarts, hfail⟩
  exact (Option.filter_eq_some_iff.1 hp).1

theorem run_error_placed_in_callee :
    let text := "function f(n) \x7b\n  1 / n;\n\x7d\nif (f(0) < 1) print(2);"
    let place : Pos := ⟨some 2, some 5, some 2, some 6⟩
    (match (Session.run text 0 none (.fresh none none)).1 with
      | .ok _ => none
      | .error failure => some failure) = some (.fault (.error (.divisionByZero .div) (some place))) ∧
    ∃ tree n, parse text = .ok tree ∧ n ∈ tree.nodes ∧ n.pos? = some place ∧
      n.Answers (.divisionByZero .div) := by
  intro text place
  have hfail : (match (Session.run text 0 none (.fresh none none)).1 with
      | .ok _ => none
      | .error failure => some failure) =
        some (.fault (.error (.divisionByZero .div) (some place))) := by decide +kernel
  have hread : (parse text).isOk = true := by decide +kernel
  refine ⟨hfail, ?_⟩
  obtain ⟨tree, hparse⟩ : ∃ tree, parse text = .ok tree := by
    cases h : parse text with
    | ok tree => exact ⟨tree, rfl⟩
    | error err => rw [h] at hread; cases hread
  rcases hrun : Session.run text 0 none (.fresh none none) with ⟨r, w⟩
  rw [hrun] at hfail
  cases r with
  | ok v => cases hfail
  | error failure =>
    cases hfail
    obtain ⟨p, n, hp, hn, hpos, hanswers, -⟩ :=
      run_error_placed text tree none none none _ _ w hparse hrun nofun
    cases hp
    exact ⟨tree, n, hparse, hn, hpos, hanswers⟩

end Featherweight
