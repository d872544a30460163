import Featherweight.Eval
import Featherweight.Proofs.Bare

/-!
# Featherweight.Proofs.BareEval

Positions have no part in what an evaluation does.

* `Store.bare` and `World.bare` leave out the positions in all values, and put `g` of each recorded
  text in its place.
* `Mirrors` : one computation does in the bare world what another does in the world itself.
* `eval_bare` : the bare tree mirrors the tree.
-/

namespace Featherweight

variable (g : Option String → Option String)

def Frame.bare (frame : Frame) : Frame :=
  { frame with
    vars := frame.vars.map fun x => (x.1, x.2.bare)
    source := g frame.source }

def Store.bare (s : Store) : Store := Array.map (Frame.bare g) s

def World.bare (w : World) : World :=
  ⟨w.store.bare g, w.log.map fun p => (p.1, p.2.bare)⟩

def Fault.bare : Fault → Fault
  | .error c _ => .error c none
  | .limit => .limit

/-! ## The store -/

section Values

variable (h : Value → Value) (x : String) (vars : List (String × Value))

theorem lookup_map_values :
    (vars.map fun y => (y.1, h y.2)).lookup x = (vars.lookup x).map h := by
  induction vars with
  | nil => rfl
  | cons y vars ih =>
    rw [List.map_cons, List.lookup_cons, List.lookup_cons, ih]
    cases x == y.1 <;> rfl

theorem bindIn_map_values (v : Value) :
    (bindIn x v vars).map (fun y => (y.1, h y.2)) =
      bindIn x (h v) (vars.map fun y => (y.1, h y.2)) := by
  induction vars with
  | nil => rfl
  | cons y vars ih =>
    rw [List.map_cons, bindIn, bindIn]
    split
    · rfl
    · rw [List.map_cons, ih]

end Values

namespace Frame

variable (frame : Frame) (x : String)

theorem get?_bare : (frame.bare g).get? x = (frame.get? x).map Value.bare :=
  lookup_map_values Value.bare x frame.vars

theorem set_bare (v : Value) : (frame.set x v).bare g = (frame.bare g).set x v.bare := by
  simp only [set, bare, bindIn_map_values]

end Frame

namespace Store

variable (s : Store) (f : FrameId) (x : String)

@[simp] theorem getElem?_bare : (s.bare g)[f]? = (s[f]?).map (Frame.bare g) := by simp [bare]

@[simp] theorem size_bare : (s.bare g).size = s.size := by simp [bare]

@[simp] theorem chain_bare : (s.bare g).chain f = s.chain f := by
  have h (n : Nat) (f : FrameId) : (s.bare g).chainFrom n f = s.chainFrom n f := by
    induction n generalizing f with
    | zero => rfl
    | succ n ih =>
      rw [chainFrom, chainFrom, getElem?_bare]
      cases s[f]? with
      | none => rfl
      | some frame =>
        dsimp only [Option.map_some, Frame.bare]
        cases frame.parent with
        | none => rfl
        | some p => dsimp only; rw [ih]
  exact h (f + 1) f

theorem get?_bare : (s.bare g).get? f x = (s.get? f x).map Value.bare := by
  rw [get?, get?, getElem?_bare]
  cases s[f]? with
  | none => rfl
  | some frame => exact frame.get?_bare g x

@[simp] theorem binds_bare : (s.bare g).binds f x = s.binds f x := by
  rw [binds, binds, get?_bare, Option.isSome_map]

theorem resolve_bare : (s.bare g).resolve f x = (s.resolve f x).bare := by
  rw [resolve, resolve, chain_bare]
  induction s.chain f with
  | nil => simp [Value.bare]
  | cons h chain ih =>
    rw [List.findSome?_cons, List.findSome?_cons, get?_bare]
    cases s.get? h x with
    | none => exact ih
    | some v => rfl

theorem bare_modify (k : Frame → Frame) (l : Frame → Frame)
    (h : ∀ frame : Frame, (k frame).bare g = l (frame.bare g)) :
    bare g (s.modify f k) = (s.bare g).modify f l := by
  apply Array.ext_getElem?
  intro i
  rw [getElem?_bare, Array.getElem?_modify, Array.getElem?_modify, getElem?_bare]
  split
  · cases s[i]? with
    | none => rfl
    | some frame => exact congrArg some (h frame)
  · rfl

theorem set_bare (v : Value) : (s.set f x v).bare g = (s.bare g).set f x v.bare :=
  s.bare_modify g f _ _ fun frame => frame.set_bare g x v

theorem update_bare (v : Value) : (s.update f x v).bare g = (s.bare g).update f x v.bare := by
  simp only [update, owner?, root, set_bare, chain_bare, binds_bare]

@[simp] theorem sink?_bare : (s.bare g).sink? f = s.sink? f := by
  simp only [sink?, chain_bare, getElem?_bare]
  congr
  funext h
  cases s[h]? <;> rfl

end Store

/-! ## Computations -/

namespace Op

theorem apply_bare (op : Op) (x y : Value) : op.apply x.bare y.bare = op.apply x y := by
  cases x <;> cases y <;> simp [Value.bare, apply, Value.typeName]

theorem bare_of_apply (op : Op) {x y v : Value} (h : op.apply x y = .ok v) : v.bare = v := by
  cases x with
  | int m =>
    cases y with
    | int n =>
      simp only [apply, onInts] at h
      split at h <;> first | (cases h; rfl) | (split at h <;> cases h; rfl)
    | _ => cases h
  | _ => cases h

end Op

namespace Eval

variable {α β γ δ : Type}

/-- A result without the place of an error, and with `k` of a value. -/
def bareWith (k : α → β) : Except Fault α → Except Fault β
  | .ok a => .ok (k a)
  | .error e => .error e.bare

/-- Started in the bare world, `n` does what `m` does; `k` turns the value of `m` into that of `n`. -/
def Mirrors (k : α → β) (m : Eval α) (n : Eval β) : Prop :=
  ∀ w, n (w.bare g) = (bareWith k (m w).1, (m w).2.bare g)

variable {g}

theorem mirrors_pure (k : α → β) (a : α) : Mirrors g k (pure a) (pure (k a)) := fun _ => rfl

theorem mirrors_fail (k : α → β) (fault : Fault) : Mirrors g k (fail fault) (fail fault.bare) :=
  fun _ => rfl

theorem Mirrors.bind {k : α → β} {l : γ → δ} {m : Eval α} {n : Eval β} {p : α → Eval γ}
    {q : β → Eval δ} (h : Mirrors g k m n) (hp : ∀ a, Mirrors g l (p a) (q (k a))) :
    Mirrors g l (m >>= p) (n >>= q) := by
  intro w
  rw [bind_apply, bind_apply, h w]
  rcases m w with ⟨r, w₁⟩
  cases r with
  | ok a => exact hp a w₁
  | error fault => rfl

theorem mirrors_resolve (f : FrameId) (x : String) :
    Mirrors g Value.bare (resolve f x) (resolve f x) := by
  intro w
  simp only [resolve, read, World.bare, Store.resolve_bare, bareWith]

theorem mirrors_update (f : FrameId) (x : String) (v : Value) :
    Mirrors g id (update f x v) (update f x v.bare) := by
  intro w
  simp only [update, World.bare, Store.update_bare, bareWith, id]

theorem mirrors_create (f : FrameId) (x : String) (v : Value) :
    Mirrors g id (create f x v) (create f x v.bare) := by
  intro w
  simp only [create, World.bare, Store.binds_bare]
  split
  · rfl
  · simp only [Store.set_bare, bareWith, id]

theorem mirrors_emit (f : FrameId) (v : Value) : Mirrors g id (emit f v) (emit f v.bare) := by
  intro w
  simp only [emit, World.bare, Store.sink?_bare, bareWith, id, List.map_cons]

theorem mirrors_makeClosure (params : List String) (body : Expr) (f : FrameId) :
    Mirrors g Value.bare (makeClosure params body f) (makeClosure params body.bare f) := by
  intro w
  have hborn : (((w.store.bare g)[f]?).map (·.born)).getD 0 =
      ((w.store[f]?).map (·.born)).getD 0 := by
    rw [Store.getElem?_bare]
    cases w.store[f]? <;> rfl
  simp only [makeClosure, World.bare, hborn, bareWith, Value.bare]
  rw [Store.bare_modify]
  exact fun _ => rfl

theorem mirrors_newFrame (hg : g none = none) (parent : Option FrameId) :
    Mirrors g id (newFrame (.fresh parent none none)) (newFrame (.fresh parent none none)) := by
  intro w
  have hfresh : (Frame.fresh parent none none).bare g = .fresh parent none none := by
    simp [Frame.bare, Frame.fresh, hg]
  simp only [newFrame, World.push, World.bare, Store.size_bare, bareWith, id]
  rw [Store.bare, Store.bare, Array.map_push, hfresh]

theorem mirrors_asBool (test : Test) (v : Value) :
    Mirrors g id (asBool test v) (asBool test v.bare) := by
  cases v with
  | bool b => exact mirrors_pure id b
  | _ => exact mirrors_fail id (.error _ none)

theorem Mirrors.ite {k : α → β} {c : Prop} [Decidable c] {m m' : Eval α} {n n' : Eval β}
    (h : Mirrors g k m n) (h' : Mirrors g k m' n') :
    Mirrors g k (if c then m else m') (if c then n else n') := by
  by_cases hc : c
  · rw [if_pos hc, if_pos hc]
    exact h
  · rw [if_neg hc, if_neg hc]
    exact h'

theorem mirrors_ofExcept_apply (op : Op) (x y : Value) :
    Mirrors g Value.bare (ofExcept (op.apply x y)) (ofExcept (op.apply x.bare y.bare)) := by
  rw [op.apply_bare]
  cases h : op.apply x y with
  | ok v =>
    have hv := mirrors_pure (g := g) Value.bare v
    rw [op.bare_of_apply h] at hv
    exact hv
  | error c => exact mirrors_fail _ (.error c none)

theorem mirrors_bindParams (f : FrameId) (xs : List String) (vs : List Value) :
    Mirrors g id (bindParams f xs vs) (bindParams f xs (vs.map Value.bare)) := by
  induction xs generalizing vs with
  | nil => exact mirrors_pure id ()
  | cons x xs ih =>
    cases vs with
    | nil => exact mirrors_pure id ()
    | cons v vs => exact (mirrors_create f x v).bind fun _ => ih vs

theorem mirrors_whileTrue {test test' : Eval Bool} {body body' : Eval Value}
    (ht : Mirrors g id test test') (hb : Mirrors g Value.bare body body') (n : Nat) :
    Mirrors g Value.bare (whileTrue test body n) (whileTrue test' body' n) := by
  induction n with
  | zero => exact mirrors_fail _ .limit
  | succ n ih =>
    refine ht.bind fun b => .ite ?_ (mirrors_pure _ _)
    exact hb.bind fun _ => ih

section Runs

variable {run run' : Expr → Eval Value} (h : ∀ e, Mirrors g Value.bare (run e) (run' e.bare))
include h

theorem mirrors_runAll (last : Value) (es : List Expr) :
    Mirrors g Value.bare (runAll run last es) (runAll run' last.bare (es.map Expr.bare)) := by
  induction es generalizing last with
  | nil => exact mirrors_pure _ _
  | cons e es ih => exact (h e).bind fun v => ih v

theorem mirrors_evalArgs (es : List Expr) :
    Mirrors g (List.map Value.bare) (evalArgs run es) (evalArgs run' (es.map Expr.bare)) := by
  induction es with
  | nil => exact mirrors_pure _ _
  | cons e es ih =>
    exact (h e).bind fun v => ih.bind fun vs => mirrors_pure (List.map Value.bare) (v :: vs)

end Runs

theorem mirrors_callWith (hg : g none = none) {run run' : Expr → FrameId → Eval Value}
    (h : ∀ e f, Mirrors g Value.bare (run e f) (run' e.bare f)) (f : Value) (args : List Value) :
    Mirrors g Value.bare (callWith run f args) (callWith run' f.bare (args.map Value.bare)) := by
  cases f with
  | closure params body frame serial =>
    simp only [callWith, Value.bare, List.length_map]
    refine .ite ?_ (mirrors_fail _ (.error _ none))
    exact (mirrors_newFrame hg _).bind fun inner =>
      (mirrors_bindParams inner params args).bind fun _ => h body inner
  | _ => exact mirrors_fail _ (.error _ none)

end Eval

/-! ## Evaluation -/

@[simp] theorem Expr.pos?_bare (e : Expr) : e.bare.pos? = none := by
  cases e <;> simp [bare, pos?]

namespace Eval

/-- Where no position is known, an error stays where it is. -/
theorem locate_of_pos? {e : Expr} (h : e.pos? = none) (m : Eval Value) : locate e m = m := by
  funext w
  rw [locate, place?, h]
  rcases m w with ⟨r, w₁⟩
  cases r with
  | ok v => rfl
  | error fault =>
    cases fault with
    | error c pos => cases pos <;> rfl
    | limit => rfl

variable {g}

theorem Mirrors.locate {m n : Eval Value} (e : Expr) (h : Mirrors g Value.bare m n) :
    Mirrors g Value.bare (locate e m) (locate e.bare n) := by
  intro w
  rw [locate_of_pos? e.pos?_bare, h w, Eval.locate]
  rcases m w with ⟨r, w₁⟩
  cases r with
  | ok v => rfl
  | error fault =>
    cases fault with
    | error c pos => cases pos <;> rfl
    | limit => rfl

end Eval

variable {g}

open Eval in
theorem eval_bare (hg : g none = none) (rounds depth : Nat) (e : Expr) (f : FrameId) :
    Mirrors g Value.bare (eval rounds depth e f) (eval rounds depth e.bare f) := by
  induction depth using depth_induction generalizing e f with
  | short depth h =>
    rw [eval_of_lt h, eval_of_lt h]
    exact mirrors_fail _ .limit
  | node depth inner ih =>
    rw [eval_node, eval_node]
    apply Mirrors.locate
    cases e with
    | literal v pos => exact mirrors_pure _ _
    | var x pos => exact mirrors_resolve f x
    | print a pos => exact (ih a f).bind fun v => (mirrors_emit f v).bind fun _ => mirrors_pure _ _
    | binary op a b pos =>
      exact (ih a f).bind fun x => (ih b f).bind fun y => mirrors_ofExcept_apply op x y
    | branch test yes no pos =>
      exact (ih test f).bind fun v => (mirrors_asBool _ v).bind fun _ => .ite (ih yes f) (ih no f)
    | loop test body pos =>
      exact mirrors_whileTrue ((ih test f).bind fun v => mirrors_asBool _ v) (ih body f) rounds
    | seq a b pos =>
      show Mirrors g Value.bare (runAll _ _ (Expr.seq a b pos).leaves)
        (runAll _ _ (Expr.seq a b pos).bare.leaves)
      rw [Expr.leaves_bare]
      exact mirrors_runAll (fun s => ih s f) .null _
    | declare x init pos =>
      exact (ih init f).bind fun v => (mirrors_create f x v).bind fun _ => mirrors_resolve f x
    | assign x value pos =>
      exact (ih value f).bind fun v => (mirrors_update f x v).bind fun _ => mirrors_resolve f x
    | function params body pos => exact mirrors_makeClosure params body f
    | call callee args pos =>
      rw [Expr.bare, Expr.bareAll_eq_map]
      refine (ih callee f).bind fun v => ?_
      cases v with
      | closure params body frame serial =>
        exact (mirrors_evalArgs (fun a => inner a f) args).bind fun vs =>
          mirrors_callWith hg inner (.closure params body frame serial) vs
      | _ => exact mirrors_fail _ (.error _ none)
    | blank => exact mirrors_fail _ (.error _ none)
    | host h => exact mirrors_fail _ (.error _ none)

end Featherweight
