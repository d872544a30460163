import Featherweight.Arith
import Featherweight.Expr.Sequence
import Featherweight.Store

/-!
# Featherweight.Eval

Evaluation of expression trees.

* `World` is what an evaluation works on: the frames, and the values printed so far with the sinks
  that received them.
* `Eval` computations change the world and may fail; what they did before they failed stays done.
* `Eval.step` is what a node does, given how its parts are evaluated.
* `eval` evaluates a tree in a frame. It recurs on the frames that the host's stack still has room for,
  and each loop has a bound on its rounds; running out of either is `Fault.limit`.

An error is placed at the innermost node with a known line.
-/

namespace Featherweight

inductive Fault where
  | error (cause : Cause) (pos : Option Pos)
  /-- The evaluation is nested too deeply or a loop runs too long. -/
  | limit
deriving DecidableEq, Repr

structure World where
  store : Store
  /-- The printed values, latest first; values without a sink go to standard output. -/
  log : List (Option SinkId × Value)

namespace World

def empty : World := ⟨#[], []⟩

/-- Add a frame; its number is the number of frames before. -/
def push (w : World) (f : Frame) : FrameId × World :=
  (w.store.size, { w with store := w.store.push f })

end World

/-- A computation on a world. -/
def Eval (α : Type) : Type := World → Except Fault α × World

namespace Eval

protected def pure {α : Type} (a : α) : Eval α := fun w => (.ok a, w)

protected def bind {α β : Type} (m : Eval α) (k : α → Eval β) : Eval β := fun w =>
  match m w with
  | (.ok a, w') => k a w'
  | (.error f, w') => (.error f, w')

instance : Monad Eval where
  pure := Eval.pure
  bind := Eval.bind

theorem pure_apply {α : Type} (a : α) (w : World) : (pure a : Eval α) w = (.ok a, w) := rfl

theorem bind_apply {α β : Type} (m : Eval α) (k : α → Eval β) (w : World) :
    (m >>= k) w = match m w with
      | (.ok a, w') => k a w'
      | (.error f, w') => (.error f, w') := rfl

def fail {α : Type} (f : Fault) : Eval α := fun w => (.error f, w)

/-- Take over a result, a cause being placed nowhere yet. -/
def ofExcept {α : Type} : Except Cause α → Eval α
  | .ok a => pure a
  | .error c => fail (.error c none)

def read {α : Type} (f : World → α) : Eval α := fun w => (.ok (f w), w)

def newFrame (f : Frame) : Eval FrameId := fun w =>
  let (id, w') := w.push f
  (.ok id, w')

def resolve (f : FrameId) (x : String) : Eval Value := read fun w => w.store.resolve f x

def update (f : FrameId) (x : String) (v : Value) : Eval Unit := fun w =>
  (.ok (), { w with store := w.store.update f x v })

/-- Bind a name that the frame does not bind yet. -/
def create (f : FrameId) (x : String) (v : Value) : Eval Unit := fun w =>
  if w.store.binds f x then (.error (.error (.duplicate x) none), w)
  else (.ok (), { w with store := w.store.set f x v })

/-- Hand a value to the sink of a frame. -/
def emit (f : FrameId) (v : Value) : Eval Unit := fun w =>
  (.ok (), { w with log := (w.store.sink? f, v) :: w.log })

/-- Make a closure over a frame. -/
def makeClosure (params : List String) (body : Expr) (f : FrameId) : Eval Value := fun w =>
  let serial := ((w.store[f]?).map (·.born)).getD 0
  (.ok (.closure params body f serial),
    { w with store := w.store.modify f fun frame => { frame with born := serial + 1 } })

/-- Bind parameters to arguments one by one. -/
def bindParams (f : FrameId) : List String → List Value → Eval Unit
  | x :: xs, v :: vs => do create f x v; bindParams f xs vs
  | _, _ => pure ()

def asBool (test : Test) : Value → Eval Bool
  | .bool b => pure b
  | v => fail (.error (.boolExpected test v.typeName) none)

/-- Repeat the body while the test holds, for fewer than `n` rounds. -/
def whileTrue (test : Eval Bool) (body : Eval Value) : Nat → Eval Value
  | 0 => fail .limit
  | n + 1 => do
    if ← test then
      let _ ← body
      whileTrue test body n
    else pure .null

/-- Run every statement; the value is that of the last one. -/
def runAll (run : Expr → Eval Value) : Value → List Expr → Eval Value
  | last, [] => pure last
  | _, e :: es => do runAll run (← run e) es

def evalArgs (run : Expr → Eval Value) : List Expr → Eval (List Value)
  | [] => pure []
  | e :: es => do
    let v ← run e
    let vs ← evalArgs run es
    pure (v :: vs)

/-- Call a function: a new frame inside the captured one binds the parameters and runs the body. -/
def callWith (run : Expr → FrameId → Eval Value) (f : Value) (args : List Value) : Eval Value :=
  match f with
  | .closure params body frame _ =>
    if args.length = params.length then do
      let inner ← newFrame (.fresh (some frame) none none)
      bindParams inner params args
      run body inner
    else fail (.error (.arity params.length args.length) none)
  | v => fail (.error (.functionExpected v.typeName) none)

/-- The position of a node, if its line is known. -/
def place? (e : Expr) : Option Pos := e.pos?.filter (·.line.isSome)

/-- Place an error that has no place yet at a node. -/
def locate (e : Expr) (m : Eval Value) : Eval Value := fun w =>
  match m w with
  | (.error (.error c none), w') => (.error (.error c (place? e)), w')
  | r => r

/-- Placing an error changes neither the world nor a value. -/
theorem locate_cases (e : Expr) (c : Eval Value) (w : World) :
    (locate e c w).2 = (c w).2 ∧ ∀ v, (locate e c w).1 = .ok v ↔ (c w).1 = .ok v := by
  rw [locate]
  rcases c w with ⟨r, w₁⟩
  cases r with
  | ok v => exact ⟨rfl, fun _ => .rfl⟩
  | error fault =>
    cases fault with
    | error cause pos => cases pos <;> exact ⟨rfl, by simp⟩
    | limit => exact ⟨rfl, fun _ => .rfl⟩

/-- What a node does, given how its parts are evaluated (`run`) and how the arguments of a call and the
body of the called function are (`inner`). Each loop goes round fewer than `rounds` times. -/
def step (rounds : Nat) (run inner : Expr → FrameId → Eval Value) (e : Expr) (here : FrameId) :
    Eval Value :=
  match e with
  | .literal v _ => pure v
  | .var x _ => resolve here x
  | .print a _ => do
    let v ← run a here
    emit here v
    pure v
  | .binary op a b _ => do
    let x ← run a here
    let y ← run b here
    ofExcept (op.apply x y)
  | .branch test yes no _ => do
    let v ← run test here
    if ← asBool .branch v then run yes here else run no here
  | .loop test body _ =>
    whileTrue (do asBool .loop (← run test here)) (run body here) rounds
  | .seq .. => runAll (fun s => run s here) .null e.leaves
  | .declare x init _ => do
    let v ← run init here
    create here x v
    resolve here x
  | .assign x value _ => do
    let v ← run value here
    update here x v
    resolve here x
  | .function params body _ => makeClosure params body here
  | .call callee args _ => do
    let f ← run callee here
    match f with
    | .closure .. => do
      let vs ← evalArgs (fun a => inner a here) args
      callWith inner f vs
    | v => fail (.error (.functionExpected v.typeName) none)
  | .blank => fail (.error .blankNode none)
  | .host h => fail (.error (.hostNode h) none)

end Eval

open Eval in
/-- Evaluate a tree in a frame. The depth is the number of frames that the host's stack has room for: a
node takes three, and what it calls takes a fourth. The parts of a node are evaluated on top of the
three, the arguments of a call and the body of a function on top of the fourth. -/
def eval (rounds : Nat) : Nat → Expr → FrameId → Eval Value
  | depth + 4, e, here =>
    locate e (step rounds (eval rounds (depth + 1)) (eval rounds depth) e here)
  | _, _, _ => fail .limit

open Eval in
theorem eval_node (rounds depth : Nat) (e : Expr) (f : FrameId) :
    eval rounds (depth + 4) e f =
      locate e (step rounds (eval rounds (depth + 1)) (eval rounds depth) e f) := rfl

theorem eval_of_lt {rounds depth : Nat} (h : depth < 4) (e : Expr) (f : FrameId) :
    eval rounds depth e f = Eval.fail .limit := by
  match depth, h with
  | 0, _ | 1, _ | 2, _ | 3, _ => rfl

/-- Induction on a depth: there is no room for a node, or there is, with the depths of what stands on
top of it. -/
@[elab_as_elim]
theorem depth_induction {motive : Nat → Prop} (short : ∀ depth, depth < 4 → motive depth)
    (node : ∀ depth, motive depth → motive (depth + 1) → motive (depth + 4)) (depth : Nat) :
    motive depth := by
  induction depth using Nat.strongRecOn with
  | ind depth ih =>
    by_cases h : depth < 4
    · exact short depth h
    · obtain ⟨n, rfl⟩ := Nat.exists_eq_add_of_le' (Nat.le_of_not_lt h)
      exact node n (ih n (by omega)) (ih (n + 1) (by omega))

end Featherweight
