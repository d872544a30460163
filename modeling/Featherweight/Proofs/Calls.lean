import Featherweight.Eval

/-!
# Featherweight.Proofs.Calls

The calls that are made in the course of an evaluation.

* `Call` : a call of a closure that got as far as making its frame.
* `Ledger` : the calls that a computation makes from a given world, in the order in which their frames
  are made. Ledgers are put together as computations are.
* `calls` : the ledger of an evaluation.
-/

namespace Featherweight

structure Call where
  frame : FrameId
  /-- The frame that the closure captured. -/
  outer : FrameId
  params : List String
  body : Expr
  /-- Whether every parameter was bound, so that the body was run. -/
  entered : Bool

abbrev Ledger : Type := World → List Call

namespace Ledger

def empty : Ledger := fun _ => []

/-- The calls of one computation and, if it succeeds, those of what follows. -/
def andThen {α : Type} (l : Ledger) (c : Eval α) (k : α → Ledger) : Ledger := fun w =>
  l w ++ match c w with
    | (.ok a, w') => k a w'
    | (.error _, _) => []

theorem andThen_empty {α : Type} (l : Ledger) (c : Eval α) : l.andThen c (fun _ => empty) = l := by
  funext w
  rw [andThen]
  split <;> exact List.append_nil _

def whileTrue (test : Eval Bool) (inTest : Ledger) (body : Eval Value) (inBody : Ledger) :
    Nat → Ledger
  | 0 => empty
  | n + 1 => inTest.andThen test fun b =>
    if b then inBody.andThen body fun _ => whileTrue test inTest body inBody n else empty

/-- The calls made in one tree after the other. -/
def inTurn (run : Expr → Eval Value) (inTree : Expr → Ledger) : List Expr → Ledger
  | [] => empty
  | e :: es => (inTree e).andThen (run e) fun _ => inTurn run inTree es

/-- A call with the wrong number of arguments makes no frame. -/
def callWith (inBody : Expr → FrameId → Ledger) (f : Value) (args : List Value) : Ledger := fun w =>
  match f with
  | .closure params body outer _ =>
    if args.length = params.length then
      let inner := w.store.size
      match Eval.bindParams inner params args (w.push (.fresh (some outer) none none)).2 with
      | (.ok _, w₂) => ⟨inner, outer, params, body, true⟩ :: inBody body inner w₂
      | (.error _, _) => [⟨inner, outer, params, body, false⟩]
    else []
  | _ => []

section CallWith

variable {inBody : Expr → FrameId → Ledger} {params : List String} {args : List Value} {body : Expr}
  {outer : FrameId} {i : Nat} {w w₂ : World} (hlen : args.length = params.length)
include hlen

theorem callWith_ok
    (h : Eval.bindParams w.store.size params args (w.push (.fresh (some outer) none none)).2 =
      (.ok (), w₂)) :
    callWith inBody (.closure params body outer i) args w =
      ⟨w.store.size, outer, params, body, true⟩ :: inBody body w.store.size w₂ := by
  simp only [callWith, if_pos hlen, h]

theorem callWith_error {fault : Fault}
    (h : Eval.bindParams w.store.size params args (w.push (.fresh (some outer) none none)).2 =
      (.error fault, w₂)) :
    callWith inBody (.closure params body outer i) args w =
      [⟨w.store.size, outer, params, body, false⟩] := by
  simp only [callWith, if_pos hlen, h]

end CallWith

end Ledger

open Eval Ledger in
/-- The calls made when a tree is evaluated in a frame, with those made in the bodies called. -/
def calls (rounds : Nat) : Nat → Expr → FrameId → Ledger
  | depth + 4, e, here =>
    match e with
    | .literal .. | .var .. | .function .. | .blank | .host _ => .empty
    | .print a _ | .declare _ a _ | .assign _ a _ => calls rounds (depth + 1) a here
    | .binary _ a b _ =>
      (calls rounds (depth + 1) a here).andThen (eval rounds (depth + 1) a here) fun _ =>
        calls rounds (depth + 1) b here
    | .branch test yes no _ =>
      (calls rounds (depth + 1) test here).andThen (eval rounds (depth + 1) test here) fun v =>
        Ledger.empty.andThen (asBool .branch v) fun b =>
          if b then calls rounds (depth + 1) yes here else calls rounds (depth + 1) no here
    | .loop test body _ =>
      Ledger.whileTrue (do asBool .loop (← eval rounds (depth + 1) test here))
        (calls rounds (depth + 1) test here) (eval rounds (depth + 1) body here)
        (calls rounds (depth + 1) body here) rounds
    | .seq .. =>
      inTurn (fun s => eval rounds (depth + 1) s here) (fun s => calls rounds (depth + 1) s here)
        e.leaves
    | .call callee args _ =>
      (calls rounds (depth + 1) callee here).andThen (eval rounds (depth + 1) callee here) fun v =>
        match v with
        | .closure .. =>
          (inTurn (fun a => eval rounds depth a here) (fun a => calls rounds depth a here) args).andThen
            (evalArgs (fun a => eval rounds depth a here) args) fun vs =>
              Ledger.callWith (calls rounds depth) v vs
        | _ => .empty
  | _, _, _ => .empty

theorem calls_of_lt {rounds depth : Nat} (h : depth < 4) (e : Expr) (f : FrameId) :
    calls rounds depth e f = .empty := by
  match depth, h with
  | 0, _ | 1, _ | 2, _ | 3, _ => rfl

end Featherweight
