import Featherweight.Proofs.BigStep
import Featherweight.Proofs.Computation

/-!
# Featherweight.Proofs.Adequacy

The evaluator does what the rules say.

* `eval_sound` : an evaluation that ends within its limits is derived by the rules.
* `Evaluates.reaches` : whatever the rules derive, the evaluator reaches once its limits are large enough.
* `eval_ends_iff_evaluates` puts them together.

The evaluator runs the leaves of a sequence one after the other and counts the rounds of a loop,
where the rules take a sequence apart in two and unroll a loop. Both are bridged once, for the helpers
`runAll` and `whileTrue`.
-/

namespace Featherweight

open Eval

/-- Between two worlds, `out` has been printed. -/
def World.Logs (w w' : World) (out : Output) : Prop := w'.log = out.reverse ++ w.log

namespace World.Logs

variable {w w₁ w₂ : World} {out out₁ out₂ : Output}

theorem refl (w : World) : w.Logs w [] := rfl

theorem trans (h₁ : w.Logs w₁ out₁) (h₂ : w₁.Logs w₂ out₂) : w.Logs w₂ (out₁ ++ out₂) := by
  rw [Logs, h₂, h₁, List.reverse_append, List.append_assoc]

theorem unique (h₁ : w.Logs w₁ out₁) (h₂ : w.Logs w₁ out₂) : out₁ = out₂ := by
  have h : out₁.reverse = out₂.reverse := List.append_cancel_right (h₁.symm.trans h₂)
  exact List.reverse_inj.1 h

end World.Logs

theorem operates_apply (op : Op) (x y : Value) : Operates op x y (op.apply x y) := by
  cases x with
  | int m =>
    cases y with
    | int n =>
      by_cases hn : n = 0
      · subst hn
        cases op with
        | div => exact .zeroDivisor (.inl rfl)
        | mod => exact .zeroDivisor (.inr rfl)
        | _ => constructor
      · cases op with
        | div => simpa [Op.apply, Op.onInts, quotRem?, hn] using Operates.div hn
        | mod => simpa [Op.apply, Op.onInts, quotRem?, hn] using Operates.mod hn
        | _ => constructor
    | _ => exact .rightNotInt (by simp)
  | _ => exact .leftNotInt (by simp)

theorem Operates.eq_apply {op : Op} {x y : Value} {o : Except Cause Value}
    (h : Operates op x y o) : o = op.apply x y := by
  cases h with
  | leftNotInt hx =>
    cases x with
    | int n => exact absurd rfl (hx n)
    | _ => rfl
  | rightNotInt hy =>
    cases y with
    | int n => exact absurd rfl (hy n)
    | _ => rfl
  | zeroDivisor hop => rcases hop with rfl | rfl <;> rfl
  | div hn => simp [Op.apply, Op.onInts, quotRem?, hn]
  | mod hn => simp [Op.apply, Op.onInts, quotRem?, hn]
  | _ => rfl

theorem ends_makeClosure {params : List String} {body : Expr} {f : FrameId} {w w' : World}
    {o : Except Cause Value} :
    Ends (makeClosure params body f) w o w' ↔
      o = .ok (w.store.newClosure f params body) ∧
      w' = { w with store := w.store.countClosure f } := by
  have hs : (w.store.modify f fun frame =>
      { frame with born := ((w.store[f]?).map (·.born)).getD 0 + 1 }) = w.store.countClosure f := by
    apply Array.ext_getElem?
    intro i
    by_cases hi : f = i
    · subst hi
      cases hf : w.store[f]? <;> simp [Store.countClosure, Array.getElem?_modify, hf]
    · simp [Store.countClosure, Array.getElem?_modify, hi]
  simp only [Ends, makeClosure, outcome?, hs, Store.newClosure, Option.some.injEq, eq_comm]

/-! ## From the evaluator to the rules -/

/-- Every end of `run` is derived by the rules. -/
def Sound (run : Expr → FrameId → Eval Value) : Prop :=
  ∀ {e : Expr} {f : FrameId} {w w' : World} {o : Except Cause Value}, Ends (run e f) w o w' →
    ∃ out, w.Logs w' out ∧ Evaluates e f w.store out o w'.store

section Soundness

variable {run : Expr → FrameId → Eval Value} {f : FrameId}

theorem Sound.evalArgs (hrun : Sound run) {es : List Expr} {w w' : World}
    {o : Except Cause (List Value)}
    (h : Ends (evalArgs (fun e => run e f) es) w o w') :
    ∃ out, w.Logs w' out ∧ EvaluatesAll es f w.store out o w'.store := by
  induction es generalizing w w' o with
  | nil =>
    obtain ⟨rfl, rfl⟩ := ends_pure.1 h
    exact ⟨[], .refl _, .nil⟩
  | cons e es ih =>
    rcases ends_bind.1 h with ⟨c, rfl, he⟩ | ⟨v, w₁, he, h⟩
    · obtain ⟨out, hl, he⟩ := hrun he
      exact ⟨out, hl, .headError he⟩
    · obtain ⟨out₁, hl₁, he⟩ := hrun he
      rcases ends_bind.1 h with ⟨c, rfl, hes⟩ | ⟨vs, w₂, hes, h⟩
      · obtain ⟨out₂, hl₂, hes⟩ := ih hes
        exact ⟨out₁ ++ out₂, hl₁.trans hl₂, .tailError he hes⟩
      · obtain ⟨out₂, hl₂, hes⟩ := ih hes
        obtain ⟨rfl, rfl⟩ := ends_pure.1 h
        exact ⟨out₁ ++ out₂, hl₁.trans hl₂, .cons he hes⟩

/-- The leaves of a tree, run one after the other, do what the rules say of the tree. -/
theorem Sound.runAll_leaves (hrun : Sound run) {e : Expr} {last : Value} {w w' : World}
    {o : Except Cause Value} (h : Ends (runAll (fun s => run s f) last e.leaves) w o w') :
    ∃ out, w.Logs w' out ∧ Evaluates e f w.store out o w'.store := by
  cases e with
  | seq a b pos =>
    rw [Expr.leaves_seq, runAll_append] at h
    rcases ends_bind.1 h with ⟨c, rfl, ha⟩ | ⟨v, w₁, ha, hb⟩
    · obtain ⟨out, hl, ha⟩ := hrun.runAll_leaves ha
      exact ⟨out, hl, .seqError ha⟩
    · obtain ⟨out₁, hl₁, ha⟩ := hrun.runAll_leaves ha
      obtain ⟨out₂, hl₂, hb⟩ := hrun.runAll_leaves hb
      exact ⟨out₁ ++ out₂, hl₁.trans hl₂, .seq ha hb⟩
  | _ => exact hrun (ends_runAll_singleton.1 h)
termination_by e

/-- What a test can come to. -/
theorem Sound.test (hrun : Sound run) {e : Expr} {kind : Test} {w w' : World}
    {o : Except Cause Bool} (h : Ends (do asBool kind (← run e f)) w o w') :
    ∃ out, w.Logs w' out ∧
      ((∃ c, o = .error c ∧ Evaluates e f w.store out (.error c) w'.store) ∨
       (∃ v, (∀ b, v ≠ .bool b) ∧ o = .error (.boolExpected kind v.typeName) ∧
          Evaluates e f w.store out (.ok v) w'.store) ∨
       (∃ b, o = .ok b ∧ Evaluates e f w.store out (.ok (.bool b)) w'.store)) := by
  rcases ends_bind.1 h with ⟨c, rfl, he⟩ | ⟨v, w₁, he, hb⟩
  · obtain ⟨out, hl, he⟩ := hrun he
    exact ⟨out, hl, .inl ⟨c, rfl, he⟩⟩
  · obtain ⟨rfl, hval⟩ := ends_asBool.1 hb
    obtain ⟨out, hl, he⟩ := hrun he
    rcases hval with ⟨b, rfl, rfl⟩ | ⟨hnot, rfl⟩
    · exact ⟨out, hl, .inr (.inr ⟨b, rfl, he⟩)⟩
    · exact ⟨out, hl, .inr (.inl ⟨v, hnot, rfl, he⟩)⟩

theorem Sound.whileTrue (hrun : Sound run) {test body : Expr} {pos : Option Pos} {n : Nat}
    {w w' : World} {o : Except Cause Value}
    (h : Ends (whileTrue (do asBool .loop (← run test f)) (run body f) n) w o w') :
    ∃ out, w.Logs w' out ∧ Evaluates (.loop test body pos) f w.store out o w'.store := by
  induction n generalizing w with
  | zero => exact absurd h not_ends_limit
  | succ n ih =>
    rcases ends_bind.1 h with ⟨c, rfl, ht⟩ | ⟨b, w₁, ht, h⟩
    · obtain ⟨out, hl, ⟨c', hc, ht⟩ | ⟨v, hv, hc, hval⟩ | ⟨b, hc, -⟩⟩ := hrun.test ht
      · cases hc
        exact ⟨out, hl, .loopTestError ht⟩
      · cases hc
        exact ⟨out, hl, .loopNotBool hval hv⟩
      · cases hc
    · obtain ⟨out₁, hl₁, ⟨c', hc, -⟩ | ⟨v, -, hc, -⟩ | ⟨b', hc, ht⟩⟩ := hrun.test ht
      · cases hc
      · cases hc
      · cases hc
        cases b with
        | false =>
          obtain ⟨rfl, rfl⟩ := ends_pure.1 h
          exact ⟨out₁, hl₁, .loopFalse ht⟩
        | true =>
          rcases ends_bind.1 h with ⟨c, rfl, hb⟩ | ⟨v, w₂, hb, h⟩
          · obtain ⟨out₂, hl₂, hb⟩ := hrun hb
            exact ⟨out₁ ++ out₂, hl₁.trans hl₂, .loopBodyError ht hb⟩
          · obtain ⟨out₂, hl₂, hb⟩ := hrun hb
            obtain ⟨out₃, hl₃, hloop⟩ := ih h
            exact ⟨_, hl₁.trans (hl₂.trans hl₃), .loopTrue ht hb hloop⟩

/-- Binding parameters prints nothing. -/
theorem bindsAll_of_ends {xs : List String} {vs : List Value} {w w' : World} {o : Except Cause Unit}
    (hlen : vs.length = xs.length) (h : Ends (bindParams f xs vs) w o w') :
    w.Logs w' [] ∧ BindsAll f xs vs w.store o w'.store := by
  induction xs generalizing vs w with
  | nil =>
    obtain rfl : vs = [] := List.length_eq_zero_iff.1 hlen
    obtain ⟨rfl, rfl⟩ := ends_pure.1 h
    exact ⟨.refl _, .nil⟩
  | cons x xs ih =>
    cases vs with
    | nil => cases hlen
    | cons v vs =>
      rcases ends_bind.1 h with ⟨c, rfl, hx⟩ | ⟨u, w₁, hx, h⟩
      · rcases ends_create.1 hx with ⟨hb, hc, rfl⟩ | ⟨-, hc, -⟩
        · cases hc
          exact ⟨.refl _, .duplicate hb⟩
        · cases hc
      · rcases ends_create.1 hx with ⟨-, hc, -⟩ | ⟨hb, -, rfl⟩
        · cases hc
        · obtain ⟨hl, hxs⟩ := ih (Nat.succ.inj hlen) h
          exact ⟨hl, .cons hb hxs⟩

theorem Sound.branch (hrun : Sound run) {test yes no : Expr} {pos : Option Pos} {w w' : World}
    {o : Except Cause Value}
    (h : Ends (do
      let v ← run test f
      if ← asBool .branch v then run yes f else run no f) w o w') :
    ∃ out, w.Logs w' out ∧ Evaluates (.branch test yes no pos) f w.store out o w'.store := by
  rw [← bind_bind] at h
  rcases ends_bind.1 h with ⟨c, rfl, ht⟩ | ⟨b, w₁, ht, h⟩
  · obtain ⟨out, hl, ⟨c', hc, ht⟩ | ⟨v, hv, hc, hval⟩ | ⟨b, hc, -⟩⟩ := hrun.test ht
    · cases hc
      exact ⟨out, hl, .branchTestError ht⟩
    · cases hc
      exact ⟨out, hl, .branchNotBool hval hv⟩
    · cases hc
  · obtain ⟨out₁, hl₁, ⟨c', hc, -⟩ | ⟨v, -, hc, -⟩ | ⟨b', hc, ht⟩⟩ := hrun.test ht
    · cases hc
    · cases hc
    · cases hc
      cases b with
      | true =>
        obtain ⟨out₂, hl₂, hy⟩ := hrun h
        exact ⟨out₁ ++ out₂, hl₁.trans hl₂, .branchTrue ht hy⟩
      | false =>
        obtain ⟨out₂, hl₂, hn⟩ := hrun h
        exact ⟨out₁ ++ out₂, hl₁.trans hl₂, .branchFalse ht hn⟩

theorem Sound.binary (hrun : Sound run) {op : Op} {a b : Expr} {pos : Option Pos} {w w' : World}
    {o : Except Cause Value}
    (h : Ends (do
      let x ← run a f
      let y ← run b f
      ofExcept (op.apply x y)) w o w') :
    ∃ out, w.Logs w' out ∧ Evaluates (.binary op a b pos) f w.store out o w'.store := by
  rcases ends_bind.1 h with ⟨c, rfl, ha⟩ | ⟨x, w₁, ha, h⟩
  · obtain ⟨out, hl, ha⟩ := hrun ha
    exact ⟨out, hl, .binaryLeftError ha⟩
  · obtain ⟨out₁, hl₁, ha⟩ := hrun ha
    rcases ends_bind.1 h with ⟨c, rfl, hb⟩ | ⟨y, w₂, hb, h⟩
    · obtain ⟨out₂, hl₂, hb⟩ := hrun hb
      exact ⟨out₁ ++ out₂, hl₁.trans hl₂, .binaryRightError ha hb⟩
    · obtain ⟨out₂, hl₂, hb⟩ := hrun hb
      obtain ⟨rfl, rfl⟩ := ends_ofExcept.1 h
      exact ⟨out₁ ++ out₂, hl₁.trans hl₂, .binary ha hb (operates_apply op x y)⟩

theorem Sound.call {inner : Expr → FrameId → Eval Value} (hrun : Sound run) (hinner : Sound inner)
    {callee : Expr} {args : List Expr} {pos : Option Pos} {w w' : World} {o : Except Cause Value}
    (h : Ends (do
      let v ← run callee f
      match v with
      | .closure .. => do
        let vs ← Eval.evalArgs (fun a => inner a f) args
        callWith inner v vs
      | v => fail (.error (.functionExpected v.typeName) none)) w o w') :
    ∃ out, w.Logs w' out ∧ Evaluates (.call callee args pos) f w.store out o w'.store := by
  rcases ends_bind.1 h with ⟨c, rfl, hf⟩ | ⟨v, w₁, hf, h⟩
  · obtain ⟨out, hl, hf⟩ := hrun hf
    exact ⟨out, hl, .callCalleeError hf⟩
  obtain ⟨out₁, hl₁, hf⟩ := hrun hf
  cases v with
  | closure params body g serial =>
    rcases ends_bind.1 h with ⟨c, rfl, ha⟩ | ⟨vs, w₂, ha, h⟩
    · obtain ⟨out₂, hl₂, ha⟩ := hinner.evalArgs ha
      exact ⟨out₁ ++ out₂, hl₁.trans hl₂, .callArgsError hf ha⟩
    obtain ⟨out₂, hl₂, ha⟩ := hinner.evalArgs ha
    by_cases hlen : vs.length = params.length
    · simp only [callWith, hlen, if_true] at h
      rcases ends_bind.1 h with ⟨c, -, hn⟩ | ⟨g', w₃, hn, h⟩
      · obtain ⟨hc, -⟩ := ends_newFrame.1 hn
        cases hc
      obtain ⟨hi, rfl⟩ := ends_newFrame.1 hn
      cases hi
      rcases ends_bind.1 h with ⟨c, rfl, hp⟩ | ⟨u, w₃, hp, hb⟩
      · obtain ⟨hl₃, hp⟩ := bindsAll_of_ends hlen hp
        have hl : w₂.Logs w' [] := hl₃
        refine ⟨out₁ ++ out₂, ?_, .callDuplicate hf ha hlen hp⟩
        simpa using hl₁.trans (hl₂.trans hl)
      · obtain ⟨hl₃, hp⟩ := bindsAll_of_ends hlen hp
        have hl : w₂.Logs w₃ [] := hl₃
        obtain ⟨out₃, hl₄, hb⟩ := hinner hb
        exact ⟨_, hl₁.trans (hl₂.trans (hl.trans hl₄)), .call hf ha hlen hp hb⟩
    · simp only [callWith, hlen, if_false] at h
      obtain ⟨rfl, rfl⟩ := ends_fail.1 h
      exact ⟨out₁ ++ out₂, hl₁.trans hl₂, .callArity hf ha hlen⟩
  | _ =>
    obtain ⟨rfl, rfl⟩ := ends_fail.1 h
    exact ⟨out₁, hl₁, .callNotFunction hf (by simp)⟩

end Soundness

/-- An evaluation that ends within its limits follows the rules. -/
theorem eval_sound (rounds depth : Nat) : Sound (eval rounds depth) := by
  induction depth using depth_induction with
  | short depth hd =>
    intro e f w w' o h
    rw [eval_of_lt hd] at h
    exact absurd h not_ends_limit
  | node depth inner ih =>
    intro e f w w' o h
    rw [eval_node, ends_locate] at h
    cases e with
    | literal v pos =>
      obtain ⟨rfl, rfl⟩ := ends_pure.1 h
      exact ⟨[], .refl _, .literal⟩
    | var x pos =>
      obtain ⟨rfl, rfl⟩ := ends_resolve.1 h
      exact ⟨[], .refl _, .var⟩
    | print a pos =>
      rcases ends_bind.1 h with ⟨c, rfl, ha⟩ | ⟨v, w₁, ha, h⟩
      · obtain ⟨out, hl, ha⟩ := ih ha
        exact ⟨out, hl, .printError ha⟩
      · obtain ⟨out, hl, ha⟩ := ih ha
        rcases ends_bind.1 h with ⟨c, -, he⟩ | ⟨u, w₂, he, h⟩
        · obtain ⟨hc, -⟩ := ends_emit.1 he
          cases hc
        · obtain ⟨-, rfl⟩ := ends_emit.1 he
          obtain ⟨rfl, rfl⟩ := ends_pure.1 h
          refine ⟨out ++ [(w₁.store.sink? f, v)], hl.trans rfl, .print ha⟩
    | binary op a b pos => exact ih.binary h
    | branch test yes no pos => exact ih.branch h
    | loop test body pos => exact ih.whileTrue h
    | seq a b pos => exact ih.runAll_leaves h
    | declare x init pos =>
      rcases ends_bind.1 h with ⟨c, rfl, hi⟩ | ⟨v, w₁, hi, h⟩
      · obtain ⟨out, hl, hi⟩ := ih hi
        exact ⟨out, hl, .declareError hi⟩
      · obtain ⟨out, hl, hi⟩ := ih hi
        rcases ends_bind.1 h with ⟨c, rfl, hx⟩ | ⟨u, w₂, hx, h⟩
        · rcases ends_create.1 hx with ⟨hb, hc, rfl⟩ | ⟨-, hc, -⟩
          · cases hc
            exact ⟨out, hl, .declareAgain hi hb⟩
          · cases hc
        · rcases ends_create.1 hx with ⟨-, hc, -⟩ | ⟨hb, -, rfl⟩
          · cases hc
          · obtain ⟨rfl, rfl⟩ := ends_resolve.1 h
            exact ⟨out, hl, .declare hi hb⟩
    | assign x value pos =>
      rcases ends_bind.1 h with ⟨c, rfl, hv⟩ | ⟨v, w₁, hv, h⟩
      · obtain ⟨out, hl, hv⟩ := ih hv
        exact ⟨out, hl, .assignError hv⟩
      · obtain ⟨out, hl, hv⟩ := ih hv
        rcases ends_bind.1 h with ⟨c, -, hu⟩ | ⟨u, w₂, hu, h⟩
        · obtain ⟨hc, -⟩ := ends_update.1 hu
          cases hc
        · obtain ⟨-, rfl⟩ := ends_update.1 hu
          obtain ⟨rfl, rfl⟩ := ends_resolve.1 h
          exact ⟨out, hl, .assign hv⟩
    | function params body pos =>
      obtain ⟨rfl, rfl⟩ := ends_makeClosure.1 h
      exact ⟨[], .refl _, .function⟩
    | call callee args pos => exact ih.call inner h
    | blank =>
      obtain ⟨rfl, rfl⟩ := ends_fail.1 h
      exact ⟨[], .refl _, .blank⟩
    | host v =>
      obtain ⟨rfl, rfl⟩ := ends_fail.1 h
      exact ⟨[], .refl _, .host⟩

/-! ## From the rules to the evaluator -/

/-- Started with the frames `s`, the computation prints `out` and ends in `o` with the frames `s'`. -/
def Eval.Reaches {α : Type} (m : Eval α) (s : Store) (out : Output) (o : Except Cause α)
    (s' : Store) : Prop :=
  ∀ log, Ends m ⟨s, log⟩ o ⟨s', out.reverse ++ log⟩

section Completeness

variable {α β : Type} {s s₁ s₂ s' : Store} {out out₁ out₂ : Output}

theorem Eval.Reaches.bind {m : Eval α} {k : α → Eval β} {a : α} {o : Except Cause β}
    (hm : m.Reaches s out₁ (.ok a) s₁) (hk : (k a).Reaches s₁ out₂ o s₂) :
    (m >>= k).Reaches s (out₁ ++ out₂) o s₂ := by
  intro log
  have h := (hm log).bind (hk _)
  rwa [← List.append_assoc, ← List.reverse_append] at h

theorem Eval.Reaches.bind_error {m : Eval α} {k : α → Eval β} {c : Cause}
    (hm : m.Reaches s out (.error c) s') : (m >>= k).Reaches s out (.error c) s' :=
  fun log => (hm log).bind_error

/-- A step that prints nothing comes first. -/
theorem Eval.Reaches.after {m : Eval α} {k : α → Eval β} {a : α} {o : Except Cause β}
    (hm : m.Reaches s [] (.ok a) s₁) (hk : (k a).Reaches s₁ out o s₂) :
    (m >>= k).Reaches s out o s₂ := hm.bind hk

/-- A step that prints nothing comes last. -/
theorem Eval.Reaches.before {m : Eval α} {k : α → Eval β} {a : α} {o : Except Cause β}
    (hm : m.Reaches s out (.ok a) s₁) (hk : (k a).Reaches s₁ [] o s₂) :
    (m >>= k).Reaches s out o s₂ := by
  have h := hm.bind hk
  rwa [List.append_nil] at h

theorem Eval.Reaches.pure {a : α} : (pure a : Eval α).Reaches s [] (.ok a) s :=
  fun _ => ends_pure.2 ⟨rfl, rfl⟩

theorem Eval.Reaches.of_extends {m n : Eval α} {o : Except Cause α} (h : Extends m n)
    (hm : m.Reaches s out o s') : n.Reaches s out o s' :=
  fun log => h.ends (hm log)

theorem Eval.Reaches.raise {n : Nat} {e : Expr} {f : FrameId} {o : Except Cause Value}
    (h : (eval n n e f).Reaches s out o s') (rounds depth : Nat) (hr : n ≤ rounds)
    (hd : n ≤ depth) : (eval rounds depth e f).Reaches s out o s' :=
  h.of_extends (eval_extends hr hd e f)

theorem Eval.Reaches.raiseArgs {n : Nat} {es : List Expr} {f : FrameId}
    {o : Except Cause (List Value)}
    (h : (evalArgs (fun e => eval n n e f) es).Reaches s out o s') (rounds depth : Nat)
    (hr : n ≤ rounds) (hd : n ≤ depth) :
    (evalArgs (fun e => eval rounds depth e f) es).Reaches s out o s' :=
  h.of_extends (extends_evalArgs (fun e => eval_extends hr hd e f) es)

theorem Eval.Reaches.locate {m : Eval Value} {e : Expr} {o : Except Cause Value}
    (h : m.Reaches s out o s') : (Eval.locate e m).Reaches s out o s' :=
  fun log => ends_locate.2 (h log)

theorem Eval.Reaches.asBool {m : Eval Value} {test : Test} {b : Bool}
    (h : m.Reaches s out (.ok (.bool b)) s') :
    (m >>= Eval.asBool test).Reaches s out (.ok b) s' := h.before .pure

theorem Eval.Reaches.notBool {m : Eval Value} {test : Test} {v : Value}
    (h : m.Reaches s out (.ok v) s') (hv : ∀ b, v ≠ .bool b) :
    (m >>= Eval.asBool test).Reaches s out (.error (.boolExpected test v.typeName)) s' :=
  h.before fun _ => ends_asBool.2 ⟨rfl, .inr ⟨hv, rfl⟩⟩

/-- A test that holds or not, and what comes after it. -/
theorem Eval.Reaches.choose {m : Eval Value} {k : Bool → Eval β} {test : Test} {b : Bool}
    {o : Except Cause β} (hm : m.Reaches s out₁ (.ok (.bool b)) s₁)
    (hk : (k b).Reaches s₁ out₂ o s₂) :
    (m >>= fun v => Eval.asBool test v >>= k).Reaches s (out₁ ++ out₂) o s₂ := by
  rw [← bind_bind]
  exact hm.asBool.bind hk

theorem Eval.Reaches.refuse {m : Eval Value} {k : Bool → Eval β} {test : Test} {v : Value}
    (hm : m.Reaches s out (.ok v) s') (hv : ∀ b, v ≠ .bool b) :
    (m >>= fun v => Eval.asBool test v >>= k).Reaches s out
      (.error (.boolExpected test v.typeName)) s' := by
  rw [← bind_bind]
  exact (hm.notBool hv).bind_error

theorem BindsAll.reaches {f : FrameId} {xs : List String} {vs : List Value}
    {o : Except Cause Unit} (h : BindsAll f xs vs s o s') :
    (bindParams f xs vs).Reaches s [] o s' := by
  induction h with
  | nil => exact .pure
  | @cons x xs v vs s s' o hb _ ih =>
    have hx : (create f x v).Reaches s [] (.ok ()) (s.set f x v) :=
      fun _ => ends_create.2 (.inr ⟨hb, rfl, rfl⟩)
    exact hx.after ih
  | duplicate hb =>
    refine Reaches.bind_error fun _ => ?_
    exact ends_create.2 (.inl ⟨hb, rfl, rfl⟩)

/-- An evaluation that reaches an end has room for a node. -/
theorem Eval.Reaches.room {rounds depth : Nat} {e : Expr} {f : FrameId} {o : Except Cause Value}
    (h : (eval rounds depth e f).Reaches s out o s') : ∃ k, depth = k + 4 := by
  by_cases hd : depth < 4
  · have hl := h []
    rw [eval_of_lt hd] at hl
    exact absurd hl not_ends_limit
  · exact ⟨depth - 4, by omega⟩

/-- What an evaluation reaches, its leaves reach one after the other. -/
theorem Eval.Reaches.leaves {n : Nat} {e : Expr} {f : FrameId} {o : Except Cause Value}
    (h : (eval n n e f).Reaches s out o s') (last : Value) :
    (runAll (fun a => eval n n a f) last e.leaves).Reaches s out o s' := by
  cases e with
  | seq a b pos =>
    obtain ⟨k, rfl⟩ := h.room
    have hrun : (runAll (fun c => eval (k + 4) (k + 1) c f) .null (Expr.seq a b pos).leaves).Reaches
        s out o s' := fun log => ends_locate.1 (h log)
    rw [runAll_leaves _ _ .null last] at hrun
    exact hrun.of_extends (extends_runAll
      (fun c => eval_extends (Nat.le_refl _) (by omega) c f) _ _)
  | _ => exact fun log => ends_runAll_singleton.2 (h log)

/-- A loop that the evaluator ends is ended by its unrolling under any larger limits. -/
theorem Eval.Reaches.rounds {n rounds depth k : Nat} {test body : Expr} {pos : Option Pos}
    {f : FrameId} {o : Except Cause Value}
    (h : (eval n n (.loop test body pos) f).Reaches s out o s') (hr : n ≤ rounds)
    (hd : n ≤ depth) (hk : n ≤ k) :
    (whileTrue (do Eval.asBool .loop (← eval rounds depth test f)) (eval rounds depth body f)
      k).Reaches s out o s' := by
  obtain ⟨j, rfl⟩ := h.room
  have hw : (whileTrue (do Eval.asBool .loop (← eval (j + 4) (j + 1) test f))
      (eval (j + 4) (j + 1) body f) (j + 4)).Reaches s out o s' := fun log => ends_locate.1 (h log)
  have hsub (a : Expr) : Extends (eval (j + 4) (j + 1) a f) (eval rounds depth a f) :=
    eval_extends hr (by omega) a f
  exact hw.of_extends (extends_whileTrue ((hsub test).bind fun _ => .refl _) (hsub body) hk)

theorem Operates.reaches {op : Op} {x y : Value} {o : Except Cause Value}
    (h : Operates op x y o) : (ofExcept (op.apply x y)).Reaches s [] o s :=
  fun _ => ends_ofExcept.2 ⟨h.eq_apply, rfl⟩

section Call

variable {run : Expr → FrameId → Eval Value} {params : List String} {body : Expr} {g : FrameId}
  {serial : Nat} {vs : List Value}

theorem Eval.Reaches.callWith {o : Except Cause Value} (hlen : vs.length = params.length)
    (hp : BindsAll s.size params vs (s.push (.fresh (some g) none none)) (.ok ()) s₁)
    (hb : (run body s.size).Reaches s₁ out o s₂) :
    (Eval.callWith run (.closure params body g serial) vs).Reaches s out o s₂ := by
  have hn : (newFrame (.fresh (some g) none none)).Reaches s [] (.ok s.size)
      (s.push (.fresh (some g) none none)) := fun _ => ends_newFrame.2 ⟨rfl, rfl⟩
  rw [Eval.callWith, if_pos hlen]
  exact hn.after (hp.reaches.after hb)

theorem Eval.Reaches.callWith_duplicate {c : Cause} (hlen : vs.length = params.length)
    (hp : BindsAll s.size params vs (s.push (.fresh (some g) none none)) (.error c) s₁) :
    (Eval.callWith run (.closure params body g serial) vs).Reaches s [] (.error c) s₁ := by
  have hn : (newFrame (.fresh (some g) none none)).Reaches s [] (.ok s.size)
      (s.push (.fresh (some g) none none)) := fun _ => ends_newFrame.2 ⟨rfl, rfl⟩
  rw [Eval.callWith, if_pos hlen]
  exact hn.after hp.reaches.bind_error

theorem Eval.Reaches.callWith_arity (hlen : vs.length ≠ params.length) :
    (Eval.callWith run (.closure params body g serial) vs).Reaches s []
      (.error (.arity params.length vs.length)) s := by
  rw [Eval.callWith, if_neg hlen]
  exact fun _ => ends_fail.2 ⟨rfl, rfl⟩

end Call

end Completeness

mutual

/-- What the rules derive, the evaluator reaches. -/
theorem Evaluates.reaches {e : Expr} {f : FrameId} {s s' : Store} {out : Output}
    {o : Except Cause Value} :
    Evaluates e f s out o s' → ∃ n, (eval n n e f).Reaches s out o s'
  | .literal => ⟨4, .locate .pure⟩
  | .var => ⟨4, .locate fun _ => ends_resolve.2 ⟨rfl, rfl⟩⟩
  | @Evaluates.print a pos f s s' out v ha => by
    obtain ⟨n, ha⟩ := ha.reaches
    refine ⟨n + 4, .locate ((ha.raise (n + 4) (n + 1) (by omega) (by omega)).bind ?_)⟩
    have he : (emit f v).Reaches s' [(s'.sink? f, v)] (.ok ()) s' :=
      fun _ => ends_emit.2 ⟨rfl, rfl⟩
    exact he.bind .pure
  | .printError ha => by
    obtain ⟨n, ha⟩ := ha.reaches
    exact ⟨n + 4, .locate (ha.raise (n + 4) (n + 1) (by omega) (by omega)).bind_error⟩
  | .binary ha hb hop => by
    obtain ⟨m, ha⟩ := ha.reaches
    obtain ⟨n, hb⟩ := hb.reaches
    have ha := ha.raise (max m n + 4) (max m n + 1) (by omega) (by omega)
    have hb := hb.raise (max m n + 4) (max m n + 1) (by omega) (by omega)
    exact ⟨max m n + 4, .locate (ha.bind (hb.before hop.reaches))⟩
  | .binaryLeftError ha => by
    obtain ⟨n, ha⟩ := ha.reaches
    exact ⟨n + 4, .locate (ha.raise (n + 4) (n + 1) (by omega) (by omega)).bind_error⟩
  | .binaryRightError ha hb => by
    obtain ⟨m, ha⟩ := ha.reaches
    obtain ⟨n, hb⟩ := hb.reaches
    have ha := ha.raise (max m n + 4) (max m n + 1) (by omega) (by omega)
    have hb := hb.raise (max m n + 4) (max m n + 1) (by omega) (by omega)
    exact ⟨max m n + 4, .locate (ha.bind hb.bind_error)⟩
  | .branchTrue ht hy => by
    obtain ⟨m, ht⟩ := ht.reaches
    obtain ⟨n, hy⟩ := hy.reaches
    have ht := ht.raise (max m n + 4) (max m n + 1) (by omega) (by omega)
    have hy := hy.raise (max m n + 4) (max m n + 1) (by omega) (by omega)
    exact ⟨max m n + 4, .locate (ht.choose hy)⟩
  | .branchFalse ht hn => by
    obtain ⟨m, ht⟩ := ht.reaches
    obtain ⟨n, hn⟩ := hn.reaches
    have ht := ht.raise (max m n + 4) (max m n + 1) (by omega) (by omega)
    have hn := hn.raise (max m n + 4) (max m n + 1) (by omega) (by omega)
    exact ⟨max m n + 4, .locate (ht.choose hn)⟩
  | .branchNotBool ht hv => by
    obtain ⟨n, ht⟩ := ht.reaches
    exact ⟨n + 4, .locate ((ht.raise (n + 4) (n + 1) (by omega) (by omega)).refuse hv)⟩
  | .branchTestError ht => by
    obtain ⟨n, ht⟩ := ht.reaches
    exact ⟨n + 4, .locate (ht.raise (n + 4) (n + 1) (by omega) (by omega)).bind_error⟩
  | .loopTrue ht hb hloop => by
    obtain ⟨k, ht⟩ := ht.reaches
    obtain ⟨m, hb⟩ := hb.reaches
    obtain ⟨n, hloop⟩ := hloop.reaches
    have hmax : k ≤ max k (max m n) ∧ m ≤ max k (max m n) ∧ n ≤ max k (max m n) := by omega
    generalize max k (max m n) = j at hmax
    obtain ⟨hk, hm, hn⟩ := hmax
    have ht := ht.raise (j + 4) (j + 1) (by omega) (by omega)
    have hb := hb.raise (j + 4) (j + 1) (by omega) (by omega)
    have hrest := hloop.rounds (by omega : n ≤ j + 4) (by omega : n ≤ j + 1) (by omega : n ≤ j + 3)
    exact ⟨j + 4, .locate (ht.asBool.bind (hb.bind hrest))⟩
  | .loopFalse ht => by
    obtain ⟨n, ht⟩ := ht.reaches
    exact ⟨n + 4, .locate ((ht.raise (n + 4) (n + 1) (by omega) (by omega)).asBool.before .pure)⟩
  | .loopNotBool ht hv => by
    obtain ⟨n, ht⟩ := ht.reaches
    have ht := ht.raise (n + 4) (n + 1) (by omega) (by omega)
    exact ⟨n + 4, .locate (ht.notBool hv).bind_error⟩
  | .loopTestError ht => by
    obtain ⟨n, ht⟩ := ht.reaches
    exact ⟨n + 4, .locate (ht.raise (n + 4) (n + 1) (by omega) (by omega)).bind_error.bind_error⟩
  | .loopBodyError ht hb => by
    obtain ⟨m, ht⟩ := ht.reaches
    obtain ⟨n, hb⟩ := hb.reaches
    have ht := ht.raise (max m n + 4) (max m n + 1) (by omega) (by omega)
    have hb := hb.raise (max m n + 4) (max m n + 1) (by omega) (by omega)
    exact ⟨max m n + 4, .locate (ht.asBool.bind hb.bind_error)⟩
  | @Evaluates.seq a b pos f s s₁ s₂ out₁ out₂ v o ha hb => by
    obtain ⟨m, ha⟩ := ha.reaches
    obtain ⟨n, hb⟩ := hb.reaches
    have ha := (ha.raise (max m n) (max m n) (by omega) (by omega)).leaves .null
    have hb := (hb.raise (max m n) (max m n) (by omega) (by omega)).leaves v
    have hab : (runAll (fun c => eval (max m n) (max m n) c f) .null
        (Expr.seq a b pos).leaves).Reaches s (out₁ ++ out₂) o s₂ := by
      rw [Expr.leaves_seq, runAll_append]
      exact ha.bind hb
    refine ⟨max m n + 4, .locate (hab.of_extends ?_)⟩
    exact extends_runAll (fun c => eval_extends (by omega) (by omega) c f) _ _
  | @Evaluates.seqError a b pos f s s' out c ha => by
    obtain ⟨n, ha⟩ := ha.reaches
    have hab : (runAll (fun c => eval n n c f) .null (Expr.seq a b pos).leaves).Reaches
        s out (.error c) s' := by
      rw [Expr.leaves_seq, runAll_append]
      exact (ha.leaves .null).bind_error
    refine ⟨n + 4, .locate (hab.of_extends ?_)⟩
    exact extends_runAll (fun c => eval_extends (by omega) (by omega) c f) _ _
  | @Evaluates.declare x init pos f s s' out v hi hb => by
    obtain ⟨n, hi⟩ := hi.reaches
    have hc : (create f x v).Reaches s' [] (.ok ()) (s'.set f x v) :=
      fun _ => ends_create.2 (.inr ⟨hb, rfl, rfl⟩)
    have hi := hi.raise (n + 4) (n + 1) (by omega) (by omega)
    exact ⟨n + 4, .locate (hi.before (hc.after fun _ => ends_resolve.2 ⟨rfl, rfl⟩))⟩
  | @Evaluates.declareAgain x init pos f s s' out v hi hb => by
    obtain ⟨n, hi⟩ := hi.reaches
    have hc : (create f x v).Reaches s' [] (.error (.duplicate x)) s' :=
      fun _ => ends_create.2 (.inl ⟨hb, rfl, rfl⟩)
    have hi := hi.raise (n + 4) (n + 1) (by omega) (by omega)
    exact ⟨n + 4, .locate (hi.before hc.bind_error)⟩
  | .declareError hi => by
    obtain ⟨n, hi⟩ := hi.reaches
    exact ⟨n + 4, .locate (hi.raise (n + 4) (n + 1) (by omega) (by omega)).bind_error⟩
  | @Evaluates.assign x value pos f s s' out v hv => by
    obtain ⟨n, hv⟩ := hv.reaches
    have hu : (update f x v).Reaches s' [] (.ok ()) (s'.update f x v) :=
      fun _ => ends_update.2 ⟨rfl, rfl⟩
    have hv := hv.raise (n + 4) (n + 1) (by omega) (by omega)
    exact ⟨n + 4, .locate (hv.before (hu.after fun _ => ends_resolve.2 ⟨rfl, rfl⟩))⟩
  | .assignError hv => by
    obtain ⟨n, hv⟩ := hv.reaches
    exact ⟨n + 4, .locate (hv.raise (n + 4) (n + 1) (by omega) (by omega)).bind_error⟩
  | .function => ⟨4, .locate fun _ => ends_makeClosure.2 ⟨rfl, rfl⟩⟩
  | .call hf ha hlen hp hb => by
    obtain ⟨k, hf⟩ := hf.reaches
    obtain ⟨m, ha⟩ := ha.reaches
    obtain ⟨n, hb⟩ := hb.reaches
    have hmax : k ≤ max k (max m n) ∧ m ≤ max k (max m n) ∧ n ≤ max k (max m n) := by omega
    generalize max k (max m n) = j at hmax
    obtain ⟨hk, hm, hn⟩ := hmax
    have hf := hf.raise (j + 4) (j + 1) (by omega) (by omega)
    have ha := ha.raiseArgs (j + 4) j (by omega) hm
    have hb := hb.raise (j + 4) j (by omega) hn
    exact ⟨j + 4, .locate (hf.bind (ha.bind (.callWith hlen hp hb)))⟩
  | .callDuplicate hf ha hlen hp => by
    obtain ⟨m, hf⟩ := hf.reaches
    obtain ⟨n, ha⟩ := ha.reaches
    have hf := hf.raise (max m n + 4) (max m n + 1) (by omega) (by omega)
    have ha := ha.raiseArgs (max m n + 4) (max m n) (by omega) (by omega)
    exact ⟨max m n + 4, .locate (hf.bind (ha.before (.callWith_duplicate hlen hp)))⟩
  | .callArity hf ha hlen => by
    obtain ⟨m, hf⟩ := hf.reaches
    obtain ⟨n, ha⟩ := ha.reaches
    have hf := hf.raise (max m n + 4) (max m n + 1) (by omega) (by omega)
    have ha := ha.raiseArgs (max m n + 4) (max m n) (by omega) (by omega)
    exact ⟨max m n + 4, .locate (hf.bind (ha.before (.callWith_arity hlen)))⟩
  | .callArgsError hf ha => by
    obtain ⟨m, hf⟩ := hf.reaches
    obtain ⟨n, ha⟩ := ha.reaches
    have hf := hf.raise (max m n + 4) (max m n + 1) (by omega) (by omega)
    have ha := ha.raiseArgs (max m n + 4) (max m n) (by omega) (by omega)
    exact ⟨max m n + 4, .locate (hf.bind ha.bind_error)⟩
  | @Evaluates.callNotFunction callee args pos f s s' out v hf hv => by
    obtain ⟨n, hf⟩ := hf.reaches
    refine ⟨n + 4, .locate ((hf.raise (n + 4) (n + 1) (by omega) (by omega)).before ?_)⟩
    cases v with
    | closure params body g serial => exact absurd rfl (hv params body g serial)
    | _ => exact fun _ => ends_fail.2 ⟨rfl, rfl⟩
  | .callCalleeError hf => by
    obtain ⟨n, hf⟩ := hf.reaches
    exact ⟨n + 4, .locate (hf.raise (n + 4) (n + 1) (by omega) (by omega)).bind_error⟩
  | .blank => ⟨4, .locate fun _ => ends_fail.2 ⟨rfl, rfl⟩⟩
  | .host => ⟨4, .locate fun _ => ends_fail.2 ⟨rfl, rfl⟩⟩

theorem EvaluatesAll.reaches {es : List Expr} {f : FrameId} {s s' : Store} {out : Output}
    {o : Except Cause (List Value)} :
    EvaluatesAll es f s out o s' →
      ∃ n, (evalArgs (fun e => eval n n e f) es).Reaches s out o s'
  | .nil => ⟨0, .pure⟩
  | .cons he hes => by
    obtain ⟨m, he⟩ := he.reaches
    obtain ⟨n, hes⟩ := hes.reaches
    have he := he.raise (max m n) (max m n) (by omega) (by omega)
    have hes := hes.raiseArgs (max m n) (max m n) (by omega) (by omega)
    exact ⟨max m n, he.bind (hes.before .pure)⟩
  | .headError he => by
    obtain ⟨n, he⟩ := he.reaches
    exact ⟨n, he.bind_error⟩
  | .tailError he hes => by
    obtain ⟨m, he⟩ := he.reaches
    obtain ⟨n, hes⟩ := hes.reaches
    have he := he.raise (max m n) (max m n) (by omega) (by omega)
    have hes := hes.raiseArgs (max m n) (max m n) (by omega) (by omega)
    exact ⟨max m n, he.bind hes.bind_error⟩

end

theorem Evaluates.ends_of_ne_limit {e : Expr} {f : FrameId} {s s' : Store} {out : Output}
    {o : Except Cause Value} (h : Evaluates e f s out o s') {rounds depth : Nat}
    {log : List (Option SinkId × Value)}
    (hl : (eval rounds depth e f ⟨s, log⟩).1 ≠ .error .limit) :
    Ends (eval rounds depth e f) ⟨s, log⟩ o ⟨s', out.reverse ++ log⟩ := by
  obtain ⟨n, hn⟩ := h.reaches
  have hbig := hn.raise (max n rounds) (max n depth) (Nat.le_max_left ..) (Nat.le_max_left ..) log
  have hsame := eval_extends (Nat.le_max_right n rounds) (Nat.le_max_right n depth) e f _ hl
  rwa [Ends, hsame] at hbig

/-- The evaluator ends with an outcome, frames and printed values under some limits if and only if the
rules derive them; and under any limits that do not stop it, it ends with what the rules derive. -/
theorem eval_ends_iff_evaluates (e : Expr) (f : FrameId) (s s' : Store)
    (log : List (Option SinkId × Value)) (out : Output) (o : Except Cause Value) :
    ((∃ rounds depth, Ends (eval rounds depth e f) ⟨s, log⟩ o ⟨s', out.reverse ++ log⟩) ↔
      Evaluates e f s out o s') ∧
    (∀ rounds depth, (eval rounds depth e f ⟨s, log⟩).1 ≠ .error .limit →
      (Ends (eval rounds depth e f) ⟨s, log⟩ o ⟨s', out.reverse ++ log⟩ ↔
        Evaluates e f s out o s')) := by
  have hsound (rounds depth : Nat)
      (h : Ends (eval rounds depth e f) ⟨s, log⟩ o ⟨s', out.reverse ++ log⟩) :
      Evaluates e f s out o s' := by
    obtain ⟨out', hlogs, he⟩ := eval_sound rounds depth h
    have hout : out' = out := hlogs.unique rfl
    rwa [hout] at he
  refine ⟨⟨fun ⟨rounds, depth, h⟩ => hsound rounds depth h, fun h => ?_⟩,
    fun rounds depth hl => ⟨hsound rounds depth, fun h => h.ends_of_ne_limit hl⟩⟩
  obtain ⟨n, hn⟩ := h.reaches
  exact ⟨n, n, hn log⟩

end Featherweight
