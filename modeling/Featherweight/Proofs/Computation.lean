import Featherweight.Eval

/-!
# Featherweight.Proofs.Computation

How a computation on a world ends.

* `Ends m w o w'` : started in `w`, the computation `m` reaches the outcome `o` in the world `w'`,
  within its limits. Where an error was placed does not count.
* `Extends m n` : `n` does what `m` does wherever `m` stays within its limits.

Both are followed through `bind` and the helpers of the evaluator, so that proofs about `eval` need
not open them. `eval_extends` says that raising the limits changes no outcome. `Expr.Yields` singles
out trees that are evaluated to one value in every world and do nothing else.
-/

namespace Featherweight

namespace Eval

/-- The outcome of a computation that stayed within its limits, without the place of an error. -/
def outcome? {α : Type} : Except Fault α → Option (Except Cause α)
  | .ok a => some (.ok a)
  | .error (.error c _) => some (.error c)
  | .error .limit => none

def Ends {α : Type} (m : Eval α) (w : World) (o : Except Cause α) (w' : World) : Prop :=
  outcome? (m w).1 = some o ∧ (m w).2 = w'

theorem bind_bind {α β γ : Type} (m : Eval α) (k : α → Eval β) (l : β → Eval γ) :
    (m >>= k) >>= l = m >>= fun a => k a >>= l := by
  funext w
  simp only [bind_apply]
  rcases m w with ⟨r, w₁⟩
  cases r <;> rfl

theorem runAll_append (run : Expr → Eval Value) (last : Value) (xs ys : List Expr) :
    runAll run last (xs ++ ys) = (do let v ← runAll run last xs; runAll run v ys) := by
  induction xs generalizing last with
  | nil => rfl
  | cons x xs ih =>
    funext w
    simp only [List.cons_append, runAll, ih, bind_apply]
    rcases run x w with ⟨r, w₁⟩
    cases r <;> rfl

theorem runAll_singleton (run : Expr → Eval Value) (last : Value) (e : Expr) :
    runAll run last [e] = run e := by
  funext w
  simp only [runAll, bind_apply]
  rcases run e w with ⟨r, w₁⟩
  cases r <;> rfl

/-- A tree has leaves, so what there was before them does not matter. -/
theorem runAll_leaves (run : Expr → Eval Value) (e : Expr) (last last' : Value) :
    runAll run last e.leaves = runAll run last' e.leaves := by
  cases h : e.leaves with
  | nil => exact absurd h e.leaves_ne_nil
  | cons s rest => rfl

section Ends

variable {α β : Type} {w w' : World}

theorem ends_pure {a : α} {o : Except Cause α} :
    Ends (pure a) w o w' ↔ o = .ok a ∧ w' = w := by
  simp only [Ends, pure_apply, outcome?, Option.some.injEq, eq_comm]

theorem ends_fail {c : Cause} {pos : Option Pos} {o : Except Cause α} :
    Ends (fail (.error c pos)) w o w' ↔ o = .error c ∧ w' = w := by
  simp only [Ends, fail, outcome?, Option.some.injEq, eq_comm]

theorem not_ends_limit {o : Except Cause α} : ¬ Ends (fail .limit : Eval α) w o w' := by
  simp [Ends, fail, outcome?]

/-- A sequence of two computations ends in the first one's error, or as the second one does. -/
theorem ends_bind {m : Eval α} {k : α → Eval β} {o : Except Cause β} :
    Ends (m >>= k) w o w' ↔
      (∃ c, o = .error c ∧ Ends m w (.error c) w') ∨
      (∃ a w₁, Ends m w (.ok a) w₁ ∧ Ends (k a) w₁ o w') := by
  unfold Ends
  rw [bind_apply]
  rcases m w with ⟨r, w₁⟩
  cases r with
  | ok a =>
    constructor
    · intro h
      exact .inr ⟨a, w₁, ⟨rfl, rfl⟩, h⟩
    · rintro (⟨c, -, hc, -⟩ | ⟨b, w₂, ⟨hb, rfl⟩, h⟩)
      · cases hc
      · cases hb
        exact h
  | error fault =>
    cases fault with
    | error c pos =>
      constructor
      · rintro ⟨ho, rfl⟩
        cases ho
        exact .inl ⟨c, rfl, rfl, rfl⟩
      · rintro (⟨c', rfl, hc, rfl⟩ | ⟨b, w₂, ⟨hb, -⟩, -⟩)
        · cases hc
          exact ⟨rfl, rfl⟩
        · cases hb
    | limit => simp [outcome?]

theorem Ends.bind {m : Eval α} {k : α → Eval β} {a : α} {w₁ : World} {o : Except Cause β}
    (h : Ends m w (.ok a) w₁) (hk : Ends (k a) w₁ o w') : Ends (m >>= k) w o w' :=
  ends_bind.2 (.inr ⟨a, w₁, h, hk⟩)

theorem Ends.bind_error {m : Eval α} {k : α → Eval β} {c : Cause}
    (h : Ends m w (.error c) w') : Ends (m >>= k) w (.error c) w' :=
  ends_bind.2 (.inl ⟨c, rfl, h⟩)

/-- Placing an error does not change the outcome. -/
theorem ends_locate {e : Expr} {m : Eval Value} {o : Except Cause Value} :
    Ends (locate e m) w o w' ↔ Ends m w o w' := by
  unfold Ends locate
  rcases m w with ⟨r, w₁⟩
  cases r with
  | ok a => rfl
  | error fault =>
    cases fault with
    | error c pos => cases pos <;> rfl
    | limit => rfl

theorem ends_ofExcept {r o : Except Cause α} :
    Ends (ofExcept r) w o w' ↔ o = r ∧ w' = w := by
  cases r with
  | ok a => exact ends_pure
  | error c => exact ends_fail

theorem ends_resolve {f : FrameId} {x : String} {o : Except Cause Value} :
    Ends (resolve f x) w o w' ↔ o = .ok (w.store.resolve f x) ∧ w' = w := by
  simp only [Ends, resolve, read, outcome?, Option.some.injEq, eq_comm]

theorem ends_update {f : FrameId} {x : String} {v : Value} {o : Except Cause Unit} :
    Ends (update f x v) w o w' ↔ o = .ok () ∧ w' = { w with store := w.store.update f x v } := by
  simp only [Ends, update, outcome?, Option.some.injEq, eq_comm]

theorem ends_emit {f : FrameId} {v : Value} {o : Except Cause Unit} :
    Ends (emit f v) w o w' ↔
      o = .ok () ∧ w' = { w with log := (w.store.sink? f, v) :: w.log } := by
  simp only [Ends, emit, outcome?, Option.some.injEq, eq_comm]

theorem ends_newFrame {f : Frame} {o : Except Cause FrameId} :
    Ends (newFrame f) w o w' ↔
      o = .ok w.store.size ∧ w' = { w with store := w.store.push f } := by
  simp only [Ends, newFrame, World.push, outcome?, Option.some.injEq, eq_comm]

theorem ends_create {f : FrameId} {x : String} {v : Value} {o : Except Cause Unit} :
    Ends (create f x v) w o w' ↔
      (w.store.binds f x = true ∧ o = .error (.duplicate x) ∧ w' = w) ∨
      (w.store.binds f x = false ∧ o = .ok () ∧ w' = { w with store := w.store.set f x v }) := by
  unfold Ends create
  cases w.store.binds f x <;> simp [outcome?, eq_comm]

theorem ends_asBool {test : Test} {v : Value} {o : Except Cause Bool} :
    Ends (asBool test v) w o w' ↔
      w' = w ∧ ((∃ b, v = .bool b ∧ o = .ok b) ∨
        ((∀ b, v ≠ .bool b) ∧ o = .error (.boolExpected test v.typeName))) := by
  cases v with
  | bool b => rw [asBool, ends_pure]; simp [and_comm]
  | _ => rw [asBool, ends_fail] <;> simp [and_comm]

theorem ends_runAll_singleton {run : Expr → Eval Value} {last : Value} {e : Expr}
    {o : Except Cause Value} : Ends (runAll run last [e]) w o w' ↔ Ends (run e) w o w' := by
  rw [runAll_singleton]

end Ends

/-- Whatever `m` does within its limits, `n` does too. -/
def Extends {α : Type} (m n : Eval α) : Prop :=
  ∀ w, (m w).1 ≠ .error .limit → n w = m w

section Extends

variable {α β : Type}

theorem Extends.refl (m : Eval α) : Extends m m := fun _ _ => rfl

theorem extends_limit (n : Eval α) : Extends (fail .limit) n := fun _ h => absurd rfl h

theorem Extends.ends {m n : Eval α} {w w' : World} {o : Except Cause α} (h : Extends m n)
    (hm : Ends m w o w') : Ends n w o w' := by
  have hl : (m w).1 ≠ .error .limit := by
    intro hl
    have ho := hm.1
    rw [hl] at ho
    cases ho
  rw [Ends, h w hl]
  exact hm

theorem Extends.bind {m n : Eval α} {k l : α → Eval β} (h : Extends m n)
    (hk : ∀ a, Extends (k a) (l a)) : Extends (m >>= k) (n >>= l) := by
  intro w hw
  rw [bind_apply] at hw ⊢
  rw [bind_apply]
  have hn := h w
  rcases hm : m w with ⟨r, w₁⟩
  rw [hm] at hw hn
  cases r with
  | ok a =>
    rw [hn (by simp)]
    exact hk a w₁ hw
  | error fault =>
    have hf : fault ≠ .limit := by
      rintro rfl
      exact hw rfl
    rw [hn (by simpa using hf)]

theorem Extends.locate {m n : Eval Value} (e : Expr) (h : Extends m n) :
    Extends (locate e m) (locate e n) := by
  intro w hw
  have hm : (m w).1 ≠ .error .limit := by
    intro hm
    apply hw
    unfold Eval.locate
    rcases hr : m w with ⟨r, w₁⟩
    rw [hr] at hm
    cases hm
    rfl
  unfold Eval.locate
  rw [h w hm]

theorem Extends.ite {c : Prop} [Decidable c] {m n m' n' : Eval α} (h : Extends m n)
    (h' : Extends m' n') : Extends (if c then m else m') (if c then n else n') := by
  by_cases hc : c
  · rw [if_pos hc, if_pos hc]; exact h
  · rw [if_neg hc, if_neg hc]; exact h'

theorem extends_whileTrue {test test' : Eval Bool} {body body' : Eval Value}
    (ht : Extends test test') (hb : Extends body body') {n n' : Nat} (hn : n ≤ n') :
    Extends (whileTrue test body n) (whileTrue test' body' n') := by
  induction n generalizing n' with
  | zero => exact extends_limit _
  | succ n ih =>
    obtain ⟨k, rfl⟩ : ∃ k, n' = k + 1 := ⟨n' - 1, by omega⟩
    refine ht.bind fun b => ?_
    cases b with
    | false => exact .refl _
    | true => exact hb.bind fun _ => ih (by omega)

theorem extends_runAll {run run' : Expr → Eval Value} (h : ∀ e, Extends (run e) (run' e))
    (last : Value) (es : List Expr) : Extends (runAll run last es) (runAll run' last es) := by
  induction es generalizing last with
  | nil => exact .refl _
  | cons e es ih => exact (h e).bind fun v => ih v

theorem extends_evalArgs {run run' : Expr → Eval Value} (h : ∀ e, Extends (run e) (run' e))
    (es : List Expr) : Extends (evalArgs run es) (evalArgs run' es) := by
  induction es with
  | nil => exact .refl _
  | cons e es ih => exact (h e).bind fun _ => ih.bind fun _ => .refl _

theorem extends_callWith {run run' : Expr → FrameId → Eval Value}
    (h : ∀ e f, Extends (run e f) (run' e f)) (f : Value) (args : List Value) :
    Extends (callWith run f args) (callWith run' f args) := by
  cases f with
  | closure params body frame serial =>
    refine Extends.ite ?_ (.refl _)
    exact (Extends.refl _).bind fun inner => (Extends.refl _).bind fun _ => h body inner
  | _ => exact .refl _

end Extends

end Eval

open Eval in
/-- Raising the limits changes nothing for an evaluation that stays within them. -/
theorem eval_extends {rounds rounds' depth depth' : Nat} (hr : rounds ≤ rounds')
    (hd : depth ≤ depth') (e : Expr) (f : FrameId) :
    Extends (eval rounds depth e f) (eval rounds' depth' e f) := by
  induction depth using depth_induction generalizing depth' e f with
  | short depth h =>
    rw [eval_of_lt h]
    exact extends_limit _
  | node depth inner ih =>
    obtain ⟨k, rfl⟩ : ∃ k, depth' = k + 4 := ⟨depth' - 4, by omega⟩
    have hinner (a : Expr) (g : FrameId) : Extends (eval rounds depth a g) (eval rounds' k a g) :=
      inner (by omega) a g
    have hsub (a : Expr) (g : FrameId) :
        Extends (eval rounds (depth + 1) a g) (eval rounds' (k + 1) a g) := ih (by omega) a g
    rw [eval_node, eval_node]
    apply Extends.locate
    cases e with
    | print a pos => exact (hsub a f).bind fun _ => .refl _
    | binary op a b pos => exact (hsub a f).bind fun _ => (hsub b f).bind fun _ => .refl _
    | branch test yes no pos =>
      refine (hsub test f).bind fun _ => (Extends.refl _).bind fun _ => ?_
      exact .ite (hsub yes f) (hsub no f)
    | loop test body pos =>
      exact extends_whileTrue ((hsub test f).bind fun _ => .refl _) (hsub body f) hr
    | seq a b pos => exact extends_runAll (fun s => hsub s f) _ _
    | declare x init pos => exact (hsub init f).bind fun _ => .refl _
    | assign x value pos => exact (hsub value f).bind fun _ => .refl _
    | call callee args pos =>
      refine (hsub callee f).bind fun v => ?_
      cases v with
      | closure params body frame serial =>
        exact (extends_evalArgs (fun a => hinner a f) args).bind fun vs =>
          extends_callWith hinner _ vs
      | _ => exact .refl _
    | _ => exact .refl _

/-- Evaluated to a depth, the tree has the value `v` and does nothing else, wherever it stands. -/
def Expr.Yields (e : Expr) (depth : Nat) (v : Value) : Prop :=
  ∀ rounds f w, eval rounds depth e f w = (.ok v, w)

namespace Expr

variable {e a b : Expr} {depth depth' : Nat} {x y v : Value}

theorem yields_literal (v : Value) (pos : Option Pos) (depth : Nat) :
    (literal v pos).Yields (depth + 4) v :=
  fun _ _ _ => rfl

theorem Yields.binary (op : Op) (ha : a.Yields (depth + 1) x) (hb : b.Yields (depth + 1) y)
    (pos : Option Pos) (h : op.apply x y = .ok v) : (binary op a b pos).Yields (depth + 4) v := by
  intro rounds f w
  simp only [eval_node, Eval.step, Eval.locate, Eval.bind_apply, ha rounds f w, hb rounds f w, h,
    Eval.ofExcept, Eval.pure_apply]

theorem Yields.deeper (h : e.Yields depth v) (hd : depth ≤ depth') : e.Yields depth' v := by
  intro rounds f w
  have hne : (eval rounds depth e f w).1 ≠ .error .limit := by simp [h rounds f w]
  rw [eval_extends (Nat.le_refl rounds) hd e f w hne, h rounds f w]

end Expr

end Featherweight
