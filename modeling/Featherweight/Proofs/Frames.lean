import Featherweight.Eval
import Mathlib.Logic.Relation

/-!
# Featherweight.Proofs.Frames

What an evaluation does to the frames, whether it succeeds or fails.

* `World.Step` : the four ways in which a world changes.
* `eval_stepwise` : an evaluation changes the world by such steps only.
* `Store.Grows` : no frame is lost, and a frame keeps its parent, its sink, its text and the order of
  its names.
-/

namespace Featherweight

inductive World.Step : World → World → Prop where
  | set (w : World) (f : FrameId) (x : String) (v : Value) :
      Step w { w with store := w.store.set f x v }
  | emit (w : World) (entry : Option SinkId × Value) : Step w { w with log := entry :: w.log }
  | count (w : World) (f : FrameId) (n : Nat) :
      Step w { w with store := w.store.modify f fun frame => { frame with born := n } }
  | push (w : World) (parent : FrameId) :
      Step w { w with store := w.store.push (.fresh (some parent) none none) }

abbrev World.Steps : World → World → Prop := Relation.ReflTransGen World.Step

namespace Eval

variable {α β : Type}

def Stepwise (m : Eval α) : Prop := ∀ w : World, w.Steps (m w).2

theorem stepwise_pure (a : α) : Stepwise (pure a) := fun _ => .refl

theorem stepwise_fail (fault : Fault) : Stepwise (fail fault : Eval α) := fun _ => .refl

theorem Stepwise.bind {m : Eval α} {k : α → Eval β} (h : Stepwise m) (hk : ∀ a, Stepwise (k a)) :
    Stepwise (m >>= k) := by
  intro w
  have hm := h w
  rw [bind_apply]
  rcases hr : m w with ⟨r, w₁⟩
  rw [hr] at hm
  cases r with
  | ok a => exact hm.trans (hk a w₁)
  | error fault => exact hm

theorem Stepwise.locate {m : Eval Value} (h : Stepwise m) (e : Expr) : Stepwise (locate e m) := by
  intro w
  rw [(locate_cases e m w).1]
  exact h w

theorem Stepwise.ite {c : Prop} [Decidable c] {m n : Eval α} (hm : Stepwise m) (hn : Stepwise n) :
    Stepwise (if c then m else n) := by
  split
  · exact hm
  · exact hn

theorem stepwise_resolve (f : FrameId) (x : String) : Stepwise (resolve f x) := fun _ => .refl

theorem stepwise_ofExcept (r : Except Cause α) : Stepwise (ofExcept r) := by
  cases r with
  | ok a => exact stepwise_pure a
  | error c => exact stepwise_fail _

theorem stepwise_asBool (test : Test) (v : Value) : Stepwise (asBool test v) := by
  cases v with
  | bool b => exact stepwise_pure b
  | _ => exact stepwise_fail _

theorem stepwise_update (f : FrameId) (x : String) (v : Value) : Stepwise (update f x v) :=
  fun w => .single (.set w _ x v)

theorem stepwise_create (f : FrameId) (x : String) (v : Value) : Stepwise (create f x v) := by
  intro w
  rw [create]
  split
  · exact .refl
  · exact .single (.set w f x v)

theorem stepwise_emit (f : FrameId) (v : Value) : Stepwise (emit f v) :=
  fun w => .single (.emit w _)

theorem stepwise_makeClosure (params : List String) (body : Expr) (f : FrameId) :
    Stepwise (makeClosure params body f) :=
  fun w => .single (.count w f _)

theorem stepwise_bindParams (f : FrameId) (xs : List String) (vs : List Value) :
    Stepwise (bindParams f xs vs) := by
  induction xs generalizing vs with
  | nil => exact stepwise_pure ()
  | cons x xs ih =>
    cases vs with
    | nil => exact stepwise_pure ()
    | cons v vs => exact (stepwise_create f x v).bind fun _ => ih vs

theorem stepwise_whileTrue {test : Eval Bool} {body : Eval Value} (ht : Stepwise test)
    (hb : Stepwise body) (n : Nat) : Stepwise (whileTrue test body n) := by
  induction n with
  | zero => exact stepwise_fail _
  | succ n ih => exact ht.bind fun _ => .ite (hb.bind fun _ => ih) (stepwise_pure _)

theorem stepwise_runAll {run : Expr → Eval Value} (h : ∀ e, Stepwise (run e)) (last : Value)
    (es : List Expr) : Stepwise (runAll run last es) := by
  induction es generalizing last with
  | nil => exact stepwise_pure _
  | cons e es ih => exact (h e).bind fun v => ih v

theorem stepwise_evalArgs {run : Expr → Eval Value} (h : ∀ e, Stepwise (run e)) (es : List Expr) :
    Stepwise (evalArgs run es) := by
  induction es with
  | nil => exact stepwise_pure _
  | cons e es ih => exact (h e).bind fun _ => ih.bind fun _ => stepwise_pure _

theorem stepwise_callWith {run : Expr → FrameId → Eval Value} (h : ∀ e f, Stepwise (run e f))
    (f : Value) (args : List Value) : Stepwise (callWith run f args) := by
  cases f with
  | closure params body frame serial =>
    refine .ite ?_ (stepwise_fail _)
    have hpush : Stepwise (newFrame (.fresh (some frame) none none)) :=
      fun w => .single (.push w frame)
    exact hpush.bind fun inner => (stepwise_bindParams inner params args).bind fun _ => h body inner
  | _ => exact stepwise_fail _

end Eval

open Eval in
/-- An evaluation changes the world step by step. -/
theorem eval_stepwise (rounds depth : Nat) (e : Expr) (f : FrameId) :
    Stepwise (eval rounds depth e f) := by
  induction depth using depth_induction generalizing e f with
  | short depth h =>
    rw [eval_of_lt h]
    exact stepwise_fail _
  | node depth inner ih =>
    refine Stepwise.locate ?_ e
    cases e with
    | literal v pos => exact stepwise_pure v
    | var x pos => exact stepwise_resolve f x
    | print a pos => exact (ih a f).bind fun v => (stepwise_emit f v).bind fun _ => stepwise_pure v
    | binary op a b pos =>
      exact (ih a f).bind fun _ => (ih b f).bind fun _ => stepwise_ofExcept _
    | branch test yes no pos =>
      exact (ih test f).bind fun v => (stepwise_asBool _ v).bind fun _ => .ite (ih yes f) (ih no f)
    | loop test body pos =>
      exact stepwise_whileTrue ((ih test f).bind fun v => stepwise_asBool _ v) (ih body f) rounds
    | seq a b pos => exact stepwise_runAll (fun s => ih s f) _ _
    | declare x init pos =>
      exact (ih init f).bind fun v => (stepwise_create f x v).bind fun _ => stepwise_resolve f x
    | assign x value pos =>
      exact (ih value f).bind fun v => (stepwise_update f x v).bind fun _ => stepwise_resolve f x
    | function params body pos => exact stepwise_makeClosure params body f
    | call callee args pos =>
      refine (ih callee f).bind fun v => ?_
      cases v with
      | closure params body frame serial =>
        exact (stepwise_evalArgs (fun a => inner a f) args).bind fun vs =>
          stepwise_callWith inner _ vs
      | _ => exact stepwise_fail _
    | blank => exact stepwise_fail _
    | host h => exact stepwise_fail _

/-! ## What the frames keep -/

structure Frame.Grows (a b : Frame) : Prop where
  parent : b.parent = a.parent
  sink : b.sink = a.sink
  source : b.source = a.source
  names : a.names <+: b.names

theorem Frame.Grows.refl (a : Frame) : a.Grows a := ⟨rfl, rfl, rfl, List.prefix_refl _⟩

theorem Frame.Grows.trans {a b c : Frame} (h : a.Grows b) (h' : b.Grows c) : a.Grows c where
  parent := h'.parent.trans h.parent
  sink := h'.sink.trans h.sink
  source := h'.source.trans h.source
  names := h.names.trans h'.names

theorem Frame.grows_set (a : Frame) (x : String) (v : Value) : a.Grows (a.set x v) where
  parent := rfl
  sink := rfl
  source := rfl
  names := by
    rw [names, names, set, map_fst_bindIn]
    split
    · exact List.prefix_refl _
    · exact List.prefix_append _ _

namespace Store

def Grows (s s' : Store) : Prop :=
  ∀ (f : FrameId) (a : Frame), s[f]? = some a → ∃ b, s'[f]? = some b ∧ a.Grows b

theorem Grows.refl (s : Store) : s.Grows s := fun _ a h => ⟨a, h, .refl a⟩

theorem Grows.trans {s t u : Store} (h : s.Grows t) (h' : t.Grows u) : s.Grows u := by
  intro f a ha
  obtain ⟨b, hb, hab⟩ := h f a ha
  obtain ⟨c, hc, hbc⟩ := h' f b hb
  exact ⟨c, hc, hab.trans hbc⟩

theorem grows_modify (s : Store) (f : FrameId) {k : Frame → Frame}
    (hk : ∀ a : Frame, a.Grows (k a)) : Grows s (s.modify f k) := by
  intro i a ha
  rw [Array.getElem?_modify, ha]
  split
  · exact ⟨k a, rfl, hk a⟩
  · exact ⟨a, rfl, .refl a⟩

theorem grows_push (s : Store) (frame : Frame) : Grows s (s.push frame) := by
  intro i a ha
  have hi : i < s.size := (Array.getElem?_eq_some_iff.1 ha).1
  exact ⟨a, by rw [Array.getElem?_push_lt hi, ← ha, Array.getElem?_eq_getElem hi], .refl a⟩

end Store

theorem World.Step.grows {w w' : World} (h : w.Step w') : w.store.Grows w'.store := by
  cases h with
  | set f x v => exact w.store.grows_modify f fun a => a.grows_set x v
  | emit => exact .refl _
  | count f n => exact w.store.grows_modify f fun _ => ⟨rfl, rfl, rfl, List.prefix_refl _⟩
  | push parent => exact w.store.grows_push _

theorem World.Steps.grows {w w' : World} (h : w.Steps w') : w.store.Grows w'.store := by
  induction h with
  | refl => exact .refl _
  | tail _ hs ih => exact ih.trans hs.grows

end Featherweight
