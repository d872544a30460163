import Featherweight.Grammar.State

/-!
# Featherweight.Proofs.Table

What the table of the parser says, checked once over all its states.

* `State.all` lists the states.
* `State.path?` follows a word from a state.
* `move?_ne_start` and `eq_start_of_move?` : a program is only ever taken together at the bottom.
-/

namespace Featherweight

namespace State

def all : List State :=
  [start, stmts, stmt, stmtsStmt, expr, exprSemicolon, ifWord, ifOpen, ifTest, ifClose, ifThen,
   ifElse, ifElseStmt, whileWord, whileOpen, whileTest, whileClose, whileStmt, functionWord,
   functionName, functionNameParams, functionNameBody, body, semicolon, lbrace, lbraceStmts,
   rbraceStmts, rbrace, paramsOpen, paramsNone, paramsName, paramsOne, paramsMore, paramsClose,
   secondComma, secondName, laterComma, laterName, varWord, varName, varEqual, varValue, name,
   nameEqual, nameValue, comparison, sum, product, unary, call, atom, minus, negated, callOpen,
   callEmpty, callArgs, callClose, argsExpr, argsMore, nextComma, nextExpr, furtherComma,
   furtherExpr, int, trueWord, falseWord, nullWord, printWord, printOpen, printExpr, printClose,
   operandName, functionAtom, functionParams, functionBody, lpar, lparExpr, rpar]
  ++ Op.all.map operator ++ Op.all.map operand

theorem mem_all (s : State) : s ∈ all := by
  cases s with
  | operator o => cases o <;> decide
  | operand o => cases o <;> decide
  | _ => decide

/-- A property of all states that has been checked state by state. -/
theorem forall_of_all {q : State → Bool} (h : all.all q = true) (s : State) : q s = true :=
  List.all_eq_true.1 h s (mem_all s)

theorem mem_moves_of_move? {s s' : State} {X : Symbol} (h : s.move? X = some s') :
    (X, s') ∈ s.moves := by
  obtain ⟨before, after, hm, -⟩ := List.lookup_eq_some_iff.1 h
  rw [hm]
  exact List.mem_append_right _ List.mem_cons_self

theorem move?_ne_start (s : State) (X : Symbol) : s.move? X ≠ some .start := by
  intro h
  have hall := forall_of_all (q := fun s => s.moves.all fun m => m.2 ≠ .start) (by decide) s
  have := List.all_eq_true.1 hall _ (mem_moves_of_move? h)
  simp at this

/-- The statements of a program stand at the bottom. -/
theorem eq_start_of_move? {s : State} {X : Symbol} (h : s.move? X = some .stmts) : s = .start := by
  have hall := forall_of_all
    (q := fun s => s.moves.all fun m => m.2 ≠ .stmts || s = .start) (by decide) s
  have := List.all_eq_true.1 hall _ (mem_moves_of_move? h)
  simpa using this

/-- Follow a word. -/
def path? : State → List Symbol → Option State
  | s, [] => some s
  | s, X :: word => (s.move? X).bind fun s' => path? s' word

end State

/-! ## First tokens -/

/-- The tokens that start an operand. -/
def operandTokens : List Terminal :=
  [.keyword .falseWord, .keyword .functionWord, .int, .lpar, .op .sub, .name, .keyword .nullWord,
   .keyword .printWord, .keyword .trueWord]

/-- The tokens that start a symbol; only an empty program has none. -/
def Symbol.first : Symbol → List Terminal
  | .term t => [t]
  | .non .program | .non .stmts | .non .stmt => stmtTokens
  | .non .body => [.lbrace]
  | .non .params => [.lpar]
  | .non .moreParams | .non .moreArgs => [.comma]
  | .non .args | .non (.exp .expr) => .keyword .varWord :: operandTokens
  | .non (.exp _) => operandTokens

theorem Symbol.eq_of_else_mem_first {X : Symbol} (h : .keyword .elseWord ∈ X.first) :
    X = .term (.keyword .elseWord) := by
  cases X with
  | term t =>
    rw [List.mem_singleton.1 h]
  | non A =>
    cases A with
    | exp l => cases l <;> exact absurd h (by decide)
    | _ => exact absurd h (by decide)

/-- The tokens that start a word before the terminal `t`. -/
def firsts (t : Terminal) : List Symbol → List Terminal
  | [] => [t]
  | X :: _ => X.first

namespace Production

/-- Every nonterminal of a word may stand before what comes after it, if `t` comes last. -/
def fits (t : Terminal) : List Symbol → Bool
  | [] => true
  | .term _ :: word => fits t word
  | .non A :: word => (firsts t word).all (A.follow.contains ·) && fits t word

theorem forall_of_all {q : Production → Bool} (h : all.all q = true) (p : Production) :
    q p = true :=
  List.all_eq_true.1 h p (mem_all p)

/-- No program stands inside another. -/
theorem program_not_mem_rhs (p : Production) : Symbol.non .program ∉ p.rhs := by
  have h := forall_of_all (q := fun p => !p.rhs.contains (.non .program)) (by decide) p
  simpa using h

theorem fits_rhs (p : Production) {t : Terminal} (ht : t ∈ p.lhs.follow) : fits t p.rhs = true := by
  have h := forall_of_all (q := fun p => p.lhs.follow.all fun t => fits t p.rhs) (by decide) p
  exact List.all_eq_true.1 h t ht

/-- The first symbol of a right side starts as the left side does. -/
theorem first_rhs (p : Production) {X : Symbol} {word : List Symbol} (h : p.rhs = X :: word)
    {t : Terminal} (ht : t ∈ X.first) : t ∈ (Symbol.non p.lhs).first := by
  have hall := forall_of_all (q := fun p => match p.rhs with
    | [] => true
    | X :: _ => X.first.all ((Symbol.non p.lhs).first.contains ·)) (by decide) p
  rw [h] at hall
  simpa using List.all_eq_true.1 hall t ht

end Production

namespace State

/-- Where a nonterminal may come, each of its productions may be read to its end. -/
theorem path?_rhs {s s' : State} {p : Production} (h : s.move? (.non p.lhs) = some s') :
    ∃ e, s.path? p.rhs = some e ∧ e.done? = some p := by
  have hall := forall_of_all (q := fun s => Production.all.all fun p =>
    (s.move? (.non p.lhs)).isNone || ((s.path? p.rhs).bind done?) = some p) (by decide +kernel) s
  have hp := List.all_eq_true.1 hall p (Production.mem_all p)
  have hsome : (s.path? p.rhs).bind done? = some p := by simpa [h] using hp
  obtain ⟨e, he, hd⟩ := Option.bind_eq_some_iff.1 hsome
  exact ⟨e, he, hd⟩

theorem move?_program (s : State) : s.move? (.non .program) = none := by
  have h := forall_of_all (q := fun s => (s.move? (.non .program)).isNone) (by decide) s
  simpa using h

/-- The only conflict between reading on and completing is an `else` after a branch. -/
theorem action?_of_done? {s : State} {p : Production} {t : Terminal} (hd : s.done? = some p)
    (ht : t ∈ p.lhs.follow) (helse : s = .ifThen → t ≠ .keyword .elseWord) :
    s.action? t = some (.reduce p) := by
  have hall := forall_of_all (q := fun s => Terminal.all.all fun t => match s.done? with
    | none => true
    | some p => t ∉ p.lhs.follow || (s = .ifThen && t = .keyword .elseWord) ||
        s.action? t = some (.reduce p)) (by decide +kernel) s
  have h := List.all_eq_true.1 hall t (Terminal.mem_all t)
  rw [hd] at h
  have hno : ¬ (s = .ifThen ∧ t = .keyword .elseWord) := fun hc => helse hc.1 hc.2
  simpa [ht, hno] using h

theorem action?_of_move? {s s' : State} {t : Terminal} (h : s.move? (.term t) = some s') :
    s.action? t = some (.shift s') := by
  simp [action?, h]

end State

end Featherweight
