import Featherweight.Proofs.Adequacy
import Featherweight.Proofs.WellFormed

/-!
# Featherweight.Proofs.Prints

What is printed in the course of an evaluation.

* `Evaluation.Starts.steps_end` : what an evaluation starts is over before it is over itself.
* `Evaluation.Passes.steps_end` : so each world that it passes through comes before its end, and what
  was printed by then is the first part of what is printed in all.
* `Evaluation.Prints` : a print node that is evaluated on the way hands over its value.
* `Evaluation.logs_prints` : nothing else is ever printed, even if the evaluation fails.
-/

namespace Featherweight

theorem World.Steps.logs {w w' : World} (h : w.Steps w') : ∃ out, w.Logs w' out := by
  induction h with
  | refl => exact ⟨[], .refl w⟩
  | @tail u _ _ hs ih =>
    obtain ⟨out, hout⟩ := ih
    cases hs with
    | emit entry =>
      have hentry : u.Logs { u with log := entry :: u.log } [entry] := rfl
      exact ⟨out ++ [entry], hout.trans hentry⟩
    | _ => exact ⟨out, hout⟩

namespace Eval

variable {α β : Type} {w w₁ : World}

/-! ## What follows a computation -/

theorem bind_of_ok {m : Eval α} {a : α} (h : m w = (.ok a, w₁)) (k : α → Eval β) :
    (m >>= k) w = k a w₁ := by
  rw [bind_apply, h]

theorem steps_bind {k : α → Eval β} (hk : ∀ a, Stepwise (k a)) (m : Eval α) (w : World) :
    (m w).2.Steps ((m >>= k) w).2 := by
  rw [bind_apply]
  rcases m w with ⟨r, w₁⟩
  cases r with
  | ok a => exact hk a w₁
  | error fault => exact .refl

/-- After some rounds a loop goes on as if it started there. -/
theorem GoesRound.exists_whileTrue_eq {test body : Eval Value} {k n : Nat} (hk : k < n)
    (h : GoesRound test body k w w₁) :
    ∃ m, whileTrue (do asBool .loop (← test)) body n w =
      whileTrue (do asBool .loop (← test)) body (m + 1) w₁ := by
  induction h generalizing n with
  | zero => exact ⟨n - 1, by rw [Nat.sub_add_cancel hk]⟩
  | @succ k w w₁ w₂ w₃ v htest hbody _ ih =>
    obtain ⟨n, rfl⟩ := Nat.exists_eq_succ_of_ne_zero (Nat.ne_zero_of_lt hk)
    obtain ⟨m, hm⟩ := ih (Nat.lt_of_succ_lt_succ hk)
    have hbool : (do asBool .loop (← test)) w = (.ok true, w₁) := bind_of_ok htest _
    refine ⟨m, ?_⟩
    rw [whileTrue, bind_of_ok hbool, if_pos rfl, bind_of_ok hbody, hm]

theorem evalArgs_append (run : Expr → Eval Value) (xs ys : List Expr) :
    evalArgs run (xs ++ ys) =
      (do let vs ← evalArgs run xs; let us ← evalArgs run ys; pure (vs ++ us)) := by
  funext w
  induction xs generalizing w with
  | nil =>
    simp only [List.nil_append, evalArgs, bind_apply, pure_apply]
    rcases evalArgs run ys w with ⟨r, w₁⟩
    cases r <;> rfl
  | cons x xs ih =>
    simp only [List.cons_append, evalArgs, bind_apply, ih, pure_apply]
    rcases run x w with ⟨r, w₁⟩
    cases r with
    | error fault => rfl
    | ok v =>
      dsimp only
      rcases evalArgs run xs w₁ with ⟨r, w₂⟩
      cases r with
      | error fault => rfl
      | ok vs =>
        dsimp only
        rcases evalArgs run ys w₂ with ⟨r, w₃⟩
        cases r <;> rfl

end Eval

namespace Evaluation

open Eval

variable {rounds : Nat} {ev sub : Evaluation} {u : World}

/-- The world that the evaluation ends in, with a value or not. -/
def final (rounds : Nat) (ev : Evaluation) : World :=
  (eval rounds ev.depth ev.tree ev.frame ev.world).2

theorem Starts.steps_end (h : ev.Starts rounds sub) : (sub.final rounds).Steps (ev.final rounds) := by
  have heval (d : Nat) (e : Expr) (f : FrameId) : Stepwise (eval rounds d e f) :=
    eval_stepwise rounds d e f
  have hcall (d : Nat) (v : Value) (vs : List Value) : Stepwise (callWith (eval rounds d) v vs) :=
    stepwise_callWith (heval d) v vs
  have hloop (d : Nat) (test body : Expr) (f : FrameId) (n : Nat) :
      Stepwise (whileTrue (do asBool .loop (← eval rounds d test f)) (eval rounds d body f) n) :=
    stepwise_whileTrue ((heval d test f).bind fun v => stepwise_asBool _ v) (heval d body f) n
  unfold final
  cases h with
  | @print d a pos f w =>
    rw [eval_node, (locate_cases _ _ _).1]
    exact steps_bind (fun v => (stepwise_emit f v).bind fun _ => stepwise_pure v) _ w
  | @left d op a b pos f w =>
    rw [eval_node, (locate_cases _ _ _).1]
    exact steps_bind (fun _ => (heval (d + 1) b f).bind fun _ => stepwise_ofExcept _) _ w
  | @right d op a b pos f w w₁ x hx =>
    rw [eval_node, (locate_cases _ _ _).1, step, bind_of_ok hx]
    exact steps_bind (fun _ => stepwise_ofExcept _) _ w₁
  | @test d test yes no pos f w =>
    rw [eval_node, (locate_cases _ _ _).1]
    refine steps_bind (fun v => ?_) _ w
    exact (stepwise_asBool _ v).bind fun _ => .ite (heval (d + 1) yes f) (heval (d + 1) no f)
  | @yes d test yes no pos f w w₁ ht =>
    rw [eval_node, (locate_cases _ _ _).1, step, bind_of_ok ht]
    exact .refl
  | @no d test yes no pos f w w₁ ht =>
    rw [eval_node, (locate_cases _ _ _).1, step, bind_of_ok ht]
    exact .refl
  | @loopTest d k test body pos f w w₁ hk hround =>
    obtain ⟨n, hn⟩ := hround.exists_whileTrue_eq hk
    rw [eval_node, (locate_cases _ _ _).1, step, hn, whileTrue, bind_bind]
    exact steps_bind (fun v => (stepwise_asBool _ v).bind fun _ =>
      .ite ((heval (d + 1) body f).bind fun _ => hloop (d + 1) test body f n) (stepwise_pure _)) _ w₁
  | @loopBody d k test body pos f w w₁ w₂ hk hround ht =>
    obtain ⟨n, hn⟩ := hround.exists_whileTrue_eq hk
    rw [eval_node, (locate_cases _ _ _).1, step, hn, whileTrue, bind_bind, bind_of_ok ht]
    exact steps_bind (fun _ => hloop (d + 1) test body f n) (eval rounds (d + 1) body f) w₂
  | @stmt d a b s before behind pos f w w₁ v hleaves hbefore =>
    rw [eval_node, (locate_cases _ _ _).1, step, hleaves, runAll_append, bind_of_ok hbefore, runAll]
    exact steps_bind (fun v => stepwise_runAll (fun s => heval (d + 1) s f) v behind) _ w₁
  | @init d x init pos f w =>
    rw [eval_node, (locate_cases _ _ _).1]
    exact steps_bind (fun v => (stepwise_create f x v).bind fun _ => stepwise_resolve f x) _ w
  | @value d x value pos f w =>
    rw [eval_node, (locate_cases _ _ _).1]
    exact steps_bind (fun v => (stepwise_update f x v).bind fun _ => stepwise_resolve f x) _ w
  | @callee d callee args pos f w =>
    rw [eval_node, (locate_cases _ _ _).1]
    refine steps_bind (fun v => ?_) _ w
    cases v with
    | closure params body g i =>
      exact (stepwise_evalArgs (fun a => heval d a f) args).bind fun vs => hcall d _ vs
    | _ => exact stepwise_fail _
  | @arg d callee a before behind pos f g w w₁ w₂ params body i vs hcallee hbefore =>
    rw [eval_node, (locate_cases _ _ _).1, step, bind_of_ok hcallee]
    dsimp only
    rw [evalArgs_append, bind_bind, bind_of_ok hbefore, evalArgs, bind_bind, bind_bind]
    refine steps_bind (fun v => ?_) _ w₂
    refine ((stepwise_evalArgs (fun a => heval d a f) behind).bind fun _ => stepwise_pure _).bind ?_
    exact fun us => (stepwise_pure _).bind fun us' => hcall d _ us'
  | @body d callee args pos f g w w₁ w₂ w₃ params body i vs hcallee hargs hlen hbind =>
    have hpush : newFrame (.fresh (some g) none none) w₂ =
        (.ok w₂.store.size, (w₂.push (.fresh (some g) none none)).2) := rfl
    rw [eval_node, (locate_cases _ _ _).1, step, bind_of_ok hcallee]
    dsimp only
    rw [bind_of_ok hargs, callWith, if_pos hlen, bind_of_ok hpush, bind_of_ok hbind]

theorem Passes.steps_end (h : ev.Passes rounds u) : u.Steps (ev.final rounds) := by
  obtain ⟨sub, hsub, hu⟩ := h
  have hsteps : (sub.final rounds).Steps (ev.final rounds) := by
    clear hu
    induction hsub with
    | refl => exact .refl
    | tail _ hs ih => exact hs.steps_end.trans ih
  rcases hu with rfl | rfl
  · exact (eval_stepwise rounds sub.depth sub.tree sub.frame sub.world).trans hsteps
  · exact hsteps

end Evaluation

/-! ## Where printed values come from -/

/-- From `w` to `w'` only entries that satisfy `P` are printed. -/
def World.LogsOnly (P : Option SinkId × Value → Prop) (w w' : World) : Prop :=
  ∃ out, w.Logs w' out ∧ ∀ entry ∈ out, P entry

namespace World.LogsOnly

variable {P Q : Option SinkId × Value → Prop} {w w₁ w₂ : World}

theorem of_log_eq (h : w₁.log = w.log) : w.LogsOnly P w₁ := ⟨[], h, by simp⟩

theorem trans (h : w.LogsOnly P w₁) (h' : w₁.LogsOnly P w₂) : w.LogsOnly P w₂ := by
  obtain ⟨out, hlog, hout⟩ := h
  obtain ⟨out', hlog', hout'⟩ := h'
  exact ⟨out ++ out', hlog.trans hlog', List.forall_mem_append.2 ⟨hout, hout'⟩⟩

theorem mono (h : w.LogsOnly P w₁) (hPQ : ∀ entry, P entry → Q entry) : w.LogsOnly Q w₁ := by
  obtain ⟨out, hlog, hout⟩ := h
  exact ⟨out, hlog, fun entry hentry => hPQ entry (hout entry hentry)⟩

end World.LogsOnly

namespace Eval

variable {α β : Type} {P : Option SinkId × Value → Prop} {w w₁ : World}

theorem logsOnly_bind {m : Eval α} {k : α → Eval β} (hm : w.LogsOnly P (m w).2)
    (hk : ∀ a w₁, m w = (.ok a, w₁) → w₁.LogsOnly P (k a w₁).2) :
    w.LogsOnly P ((m >>= k) w).2 := by
  rw [bind_apply]
  rcases hr : m w with ⟨r, w₁⟩
  rw [hr] at hm
  cases r with
  | ok a => exact hm.trans (hk a w₁ hr)
  | error fault => exact hm

theorem asBool_log (test : Test) (v : Value) (w : World) : (asBool test v w).2.log = w.log := by
  cases v <;> rfl

theorem ofExcept_log (r : Except Cause α) (w : World) : (ofExcept r w).2.log = w.log := by
  cases r <;> rfl

theorem create_log (f : FrameId) (x : String) (v : Value) (w : World) :
    (create f x v w).2.log = w.log := by
  rw [create]
  split <;> rfl

theorem bindParams_log (f : FrameId) (xs : List String) (vs : List Value) (w : World) :
    (bindParams f xs vs w).2.log = w.log := by
  induction xs generalizing vs w with
  | nil => rfl
  | cons x xs ih =>
    cases vs with
    | nil => rfl
    | cons v vs =>
      have hcreate := create_log f x v w
      rw [bindParams, bind_apply]
      rcases hr : create f x v w with ⟨r, w₁⟩
      rw [hr] at hcreate
      cases r with
      | ok _ => exact (ih vs w₁).trans hcreate
      | error fault => exact hcreate

theorem asBool_bind_eq_ok {m : Eval Value} {test : Test} {b : Bool}
    (h : (do asBool test (← m)) w = (.ok b, w₁)) : m w = (.ok (.bool b), w₁) := by
  rw [bind_apply] at h
  rcases hm : m w with ⟨r, w₂⟩
  rw [hm] at h
  cases r with
  | error fault => cases h
  | ok v =>
    obtain ⟨rfl, rfl⟩ := asBool_eq_ok h
    rfl

theorem logsOnly_whileTrue {test body : Eval Value} {n : Nat}
    (ht : ∀ k u, k < n → GoesRound test body k w u → u.LogsOnly P (test u).2)
    (hb : ∀ k u u', k < n → GoesRound test body k w u → test u = (.ok (.bool true), u') →
      u'.LogsOnly P (body u').2) :
    w.LogsOnly P (whileTrue (do asBool .loop (← test)) body n w).2 := by
  induction n generalizing w with
  | zero => exact .of_log_eq rfl
  | succ n ih =>
    refine logsOnly_bind (logsOnly_bind (ht 0 w n.succ_pos .zero) ?_) ?_
    · exact fun v w₁ _ => .of_log_eq (asBool_log _ v w₁)
    · intro b w₁ hb₁
      have htest := asBool_bind_eq_ok hb₁
      cases b with
      | false => exact .of_log_eq rfl
      | true =>
        refine logsOnly_bind (hb 0 w w₁ n.succ_pos .zero htest) fun v w₂ hbody => ih ?_ ?_
        · exact fun k u hk hround => ht (k + 1) u (Nat.succ_lt_succ hk) (.succ htest hbody hround)
        · exact fun k u u' hk hround =>
            hb (k + 1) u u' (Nat.succ_lt_succ hk) (.succ htest hbody hround)

theorem logsOnly_runAll {run : Expr → Eval Value} {last : Value} {es : List Expr}
    (h : ∀ before e behind v u, es = before ++ e :: behind →
      runAll run last before w = (.ok v, u) → u.LogsOnly P (run e u).2) :
    w.LogsOnly P (runAll run last es w).2 := by
  induction es generalizing last w with
  | nil => exact .of_log_eq rfl
  | cons e es ih =>
    refine logsOnly_bind (h [] e es last w rfl rfl) fun v w₁ he => ih ?_
    intro before e' behind v' u hes hbefore
    refine h (e :: before) e' behind v' u (by rw [hes]; rfl) ?_
    rw [runAll, bind_of_ok he, hbefore]

theorem logsOnly_evalArgs {run : Expr → Eval Value} {es : List Expr}
    (h : ∀ before e behind vs u, es = before ++ e :: behind →
      evalArgs run before w = (.ok vs, u) → u.LogsOnly P (run e u).2) :
    w.LogsOnly P (evalArgs run es w).2 := by
  induction es generalizing w with
  | nil => exact .of_log_eq rfl
  | cons e es ih =>
    refine logsOnly_bind (h [] e es [] w rfl rfl) fun v w₁ he => logsOnly_bind (ih ?_) ?_
    · intro before e' behind vs u hes hbefore
      refine h (e :: before) e' behind (v :: vs) u (by rw [hes]; rfl) ?_
      rw [evalArgs, bind_of_ok he, bind_of_ok hbefore, pure_apply]
    · exact fun vs w₂ _ => .of_log_eq rfl

theorem logsOnly_callWith {run : Expr → FrameId → Eval Value} {params : List String} {body : Expr}
    {g : FrameId} {i : Nat} {vs : List Value}
    (h : ∀ w₁, vs.length = params.length →
      bindParams w.store.size params vs (w.push (.fresh (some g) none none)).2 = (.ok (), w₁) →
      w₁.LogsOnly P (run body w.store.size w₁).2) :
    w.LogsOnly P (callWith run (.closure params body g i) vs w).2 := by
  rw [callWith]
  split
  · rename_i hlen
    have hpush : newFrame (.fresh (some g) none none) w =
        (.ok w.store.size, (w.push (.fresh (some g) none none)).2) := rfl
    rw [bind_of_ok hpush]
    have hpushed : w.LogsOnly P (w.push (.fresh (some g) none none)).2 := .of_log_eq rfl
    exact hpushed.trans (logsOnly_bind (.of_log_eq (bindParams_log ..)) fun _ w₁ => h w₁ hlen)
  · exact .of_log_eq rfl

end Eval

namespace Evaluation

open Eval

variable {rounds : Nat} {ev sub : Evaluation} {entry : Option SinkId × Value}

/-- The evaluation leads to that of a print node, which hands the value of its argument to the sink
that its frame has then. -/
def Prints (rounds : Nat) (ev : Evaluation) (entry : Option SinkId × Value) : Prop :=
  ∃ d a pos f w v u, Relation.ReflTransGen (Starts rounds) ev ⟨d + 4, .print a pos, f, w⟩ ∧
    eval rounds (d + 1) a f w = (.ok v, u) ∧ entry = (u.store.sink? f, v)

theorem Prints.of_starts (hs : ev.Starts rounds sub) (h : sub.Prints rounds entry) :
    ev.Prints rounds entry := by
  obtain ⟨d, a, pos, f, w, v, u, hreach, hv, hentry⟩ := h
  exact ⟨d, a, pos, f, w, v, u, .head hs hreach, hv, hentry⟩

theorem logs_prints (rounds : Nat) (ev : Evaluation) :
    ev.world.LogsOnly (ev.Prints rounds) (ev.final rounds) := by
  obtain ⟨d, e, f, w⟩ := ev
  induction d using depth_induction generalizing e f w with
  | short d hd =>
    rw [final, eval_of_lt hd]
    exact .of_log_eq rfl
  | node d inner ih =>
    have hsub {e' : Expr} {f' : FrameId} {w' : World}
        (hs : Starts rounds ⟨d + 4, e, f, w⟩ ⟨d + 1, e', f', w'⟩) :
        w'.LogsOnly (Prints rounds ⟨d + 4, e, f, w⟩) (eval rounds (d + 1) e' f' w').2 :=
      (ih e' f' w').mono fun _ h => h.of_starts hs
    have hinner {e' : Expr} {f' : FrameId} {w' : World}
        (hs : Starts rounds ⟨d + 4, e, f, w⟩ ⟨d, e', f', w'⟩) :
        w'.LogsOnly (Prints rounds ⟨d + 4, e, f, w⟩) (eval rounds d e' f' w').2 :=
      (inner e' f' w').mono fun _ h => h.of_starts hs
    rw [final, eval_node, (locate_cases _ _ _).1]
    cases e with
    | literal v pos => exact .of_log_eq rfl
    | var x pos => exact .of_log_eq rfl
    | print a pos =>
      refine logsOnly_bind (hsub .print) fun v u hv => ?_
      refine ⟨[(u.store.sink? f, v)], rfl, ?_⟩
      simpa using ⟨d, a, pos, f, w, v, u, .refl, hv, rfl⟩
    | binary op a b pos =>
      refine logsOnly_bind (hsub .left) fun x w₁ hx => ?_
      exact logsOnly_bind (hsub (.right hx)) fun y w₂ _ => .of_log_eq (ofExcept_log _ w₂)
    | branch test yes no pos =>
      refine logsOnly_bind (hsub .test) fun v w₁ hv => ?_
      refine logsOnly_bind (.of_log_eq (asBool_log _ v w₁)) fun b w₂ hb => ?_
      obtain ⟨rfl, rfl⟩ := asBool_eq_ok hb
      cases b with
      | true => exact hsub (.yes hv)
      | false => exact hsub (.no hv)
    | loop test body pos =>
      refine logsOnly_whileTrue (fun k u hk hround => ?_) fun k u u' hk hround ht => ?_
      · exact hsub (.loopTest hk hround)
      · exact hsub (.loopBody hk hround ht)
    | seq a b pos =>
      exact logsOnly_runAll fun before s behind v u hes hbefore => hsub (.stmt hes hbefore)
    | declare x init pos =>
      refine logsOnly_bind (hsub .init) fun v w₁ _ => ?_
      exact logsOnly_bind (.of_log_eq (create_log f x v w₁)) fun _ _ _ => .of_log_eq rfl
    | assign x value pos =>
      refine logsOnly_bind (hsub .value) fun v w₁ _ => ?_
      exact logsOnly_bind (.of_log_eq rfl) fun _ _ _ => .of_log_eq rfl
    | function params body pos => exact .of_log_eq rfl
    | call callee args pos =>
      refine logsOnly_bind (hsub .callee) fun v w₁ hv => ?_
      cases v with
      | closure params body g i =>
        refine logsOnly_bind (logsOnly_evalArgs ?_) fun vs w₂ hvs => logsOnly_callWith ?_
        · rintro before a behind vs u rfl hbefore
          exact hinner (.arg hv hbefore)
        · exact fun w₃ hlen hbind => hinner (.body hv hvs hlen hbind)
      | _ => exact .of_log_eq rfl
    | blank => exact .of_log_eq rfl
    | host h => exact .of_log_eq rfl

end Evaluation

end Featherweight
