import Featherweight.Grammar.State

/-!
# Featherweight.Grammar.Machine

The shift-reduce machine, for values of any kind.

* `Values V word` holds one value of `V` for each symbol of a word.
* An `Entry` of the stack is a symbol that has been read, its value and the state it led to.
* `feed` gives the machine one terminal: the productions that are complete before it are taken
  together, and then the terminal is read, refused, or found to end the program.
* `expected` are the terminals that a stack would not refuse.

What the machine does with the states never looks at the values.
-/

namespace Featherweight

def Values (V : Symbol → Type) : List Symbol → Type
  | [] => Unit
  | X :: word => V X × Values V word

/-- How the value of a production is made from those of its right side. -/
abbrev Build (V : Symbol → Type) : Type :=
  (p : Production) → Values V p.rhs → V (.non p.lhs)

structure Entry (V : Symbol → Type) where
  state : State
  symbol : Symbol
  value : V symbol

/-- The symbols read so far, the latest first. -/
abbrev Stack (V : Symbol → Type) : Type := List (Entry V)

namespace Stack

variable {V : Symbol → Type}

def state : Stack V → State
  | [] => .start
  | e :: _ => e.state

/-- Take the values of a word off the stack, the last symbol of the word being on top. -/
def pop? : (word : List Symbol) → Stack V → Option (Values V word × Stack V)
  | [], stack => some ((), stack)
  | X :: word, stack =>
    match pop? word stack with
    | some (values, e :: below) =>
      if h : e.symbol = X then some ((h ▸ e.value, values), below) else none
    | _ => none

/-- The stack without its values. -/
def erase (stack : Stack V) : Stack fun _ => Unit := stack.map fun e => ⟨e.state, e.symbol, ()⟩

end Stack

/-- What becomes of a terminal. -/
inductive Reply (V : Symbol → Type) where
  | read (stack : Stack V)
  | finished (value : V (.non .program))
  | refused (stack : Stack V)

/-- Take the complete productions together before terminal `t`, then read it. The fuel bounds the
number of productions; a refusal shows the stack as the productions left it. -/
def feed {V : Symbol → Type} (build : Build V) :
    Nat → Stack V → (t : Terminal) → V (.term t) → Reply V
  | 0, stack, _, _ => .refused stack
  | fuel + 1, stack, t, v =>
    match stack.state.action? t with
    | none => .refused stack
    | some (.shift s) => .read (⟨s, .term t, v⟩ :: stack)
    | some (.reduce p) =>
      match stack.pop? p.rhs with
      | none => .refused stack
      | some (values, below) =>
        if h : p.lhs = .program then .finished (h ▸ build p values)
        else
          match (Stack.state below).move? (.non p.lhs) with
          | none => .refused stack
          | some s => feed build fuel (⟨s, .non p.lhs, build p values⟩ :: below) t v

/-- Whether a stack would read terminal `t`, or end the program with it. -/
def Stack.takes {V : Symbol → Type} (stack : Stack V) (fuel : Nat) (t : Terminal) : Bool :=
  match feed (fun _ _ => ()) fuel stack.erase t () with
  | .refused _ => false
  | _ => true

def Stack.expected {V : Symbol → Type} (stack : Stack V) (fuel : Nat) : List Terminal :=
  Terminal.all.filter (stack.takes fuel)

end Featherweight
