import Featherweight.Proofs.Machine

/-!
# Featherweight.Proofs.Items

The productions that are in progress in a state, and what they say about the stack.

* `State.kernel` lists the productions of which something has been read, each with how much.
* `State.has s p n` : in state `s` the first `n` symbols of `p` are behind.
* `Stack.Linked.pop?_rhs` : these symbols are on top of the stack, and below them is a state in which
  the left side of `p` may come.
* `Stack.weight` : every production that is taken together makes the stack lighter, which bounds what
  the machine does before a terminal (`feed_enough`).
-/

namespace Featherweight

namespace State

def kernel : State → List (Production × Nat)
  | start => []
  | stmts => [(.programStmts, 1), (.stmtsMore, 1)]
  | stmt => [(.stmtsOne, 1)]
  | stmtsStmt => [(.stmtsMore, 2)]
  | expr => [(.stmtExpr, 1)]
  | exprSemicolon => [(.stmtExpr, 2)]
  | ifWord => [(.stmtIf, 1), (.stmtIfElse, 1)]
  | ifOpen => [(.stmtIf, 2), (.stmtIfElse, 2)]
  | ifTest => [(.stmtIf, 3), (.stmtIfElse, 3)]
  | ifClose => [(.stmtIf, 4), (.stmtIfElse, 4)]
  | ifThen => [(.stmtIf, 5), (.stmtIfElse, 5)]
  | ifElse => [(.stmtIfElse, 6)]
  | ifElseStmt => [(.stmtIfElse, 7)]
  | whileWord => [(.stmtWhile, 1)]
  | whileOpen => [(.stmtWhile, 2)]
  | whileTest => [(.stmtWhile, 3)]
  | whileClose => [(.stmtWhile, 4)]
  | whileStmt => [(.stmtWhile, 5)]
  | functionWord => [(.stmtFunction, 1), (.atomFunction, 1)]
  | functionName => [(.stmtFunction, 2)]
  | functionNameParams => [(.stmtFunction, 3)]
  | functionNameBody => [(.stmtFunction, 4)]
  | body => [(.stmtBlock, 1)]
  | semicolon => [(.stmtEmpty, 1)]
  | lbrace => [(.bodyStmts, 1), (.bodyEmpty, 1)]
  | lbraceStmts => [(.bodyStmts, 2), (.stmtsMore, 1)]
  | rbraceStmts => [(.bodyStmts, 3)]
  | rbrace => [(.bodyEmpty, 2)]
  | paramsOpen => [(.paramsNone, 1), (.paramsOne, 1), (.paramsMore, 1)]
  | paramsNone => [(.paramsNone, 2)]
  | paramsName => [(.paramsOne, 2), (.paramsMore, 2)]
  | paramsOne => [(.paramsOne, 3)]
  | paramsMore => [(.paramsMore, 3), (.moreParamsMore, 1)]
  | paramsClose => [(.paramsMore, 4)]
  | secondComma => [(.moreParamsOne, 1)]
  | secondName => [(.moreParamsOne, 2)]
  | laterComma => [(.moreParamsMore, 2)]
  | laterName => [(.moreParamsMore, 3)]
  | varWord => [(.exprVar, 1)]
  | varName => [(.exprVar, 2)]
  | varEqual => [(.exprVar, 3)]
  | varValue => [(.exprVar, 4)]
  | name => [(.exprAssign, 1), (.atomName, 1)]
  | nameEqual => [(.exprAssign, 2)]
  | nameValue => [(.exprAssign, 3)]
  | comparison => [(.exprComparison, 1)]
  | sum => (.comparisonSum, 1) :: (Op.all.filter (·.leftLevel = .sum)).map (.binary ·, 1)
  | product => (.sumProduct, 1) :: (Op.all.filter (·.leftLevel = .product)).map (.binary ·, 1)
  | unary => [(.productUnary, 1)]
  | call => [(.unaryCall, 1), (.callArgs, 1), (.callEmpty, 1)]
  | atom => [(.callAtom, 1)]
  | operator o => [(.binary o, 2)]
  | operand o => (.binary o, 3) :: (Op.all.filter (·.level = o.rightLevel)).map (.binary ·, 1)
  | minus => [(.negation, 1)]
  | negated => [(.negation, 2)]
  | callOpen => [(.callArgs, 2), (.callEmpty, 2)]
  | callEmpty => [(.callEmpty, 3)]
  | callArgs => [(.callArgs, 3)]
  | callClose => [(.callArgs, 4)]
  | argsExpr => [(.argsOne, 1), (.argsMore, 1)]
  | argsMore => [(.argsMore, 2), (.moreArgsMore, 1)]
  | nextComma => [(.moreArgsOne, 1)]
  | nextExpr => [(.moreArgsOne, 2)]
  | furtherComma => [(.moreArgsMore, 2)]
  | furtherExpr => [(.moreArgsMore, 3)]
  | int => [(.atomInt, 1)]
  | trueWord => [(.atomTrue, 1)]
  | falseWord => [(.atomFalse, 1)]
  | nullWord => [(.atomNull, 1)]
  | printWord => [(.atomPrint, 1)]
  | printOpen => [(.atomPrint, 2)]
  | printExpr => [(.atomPrint, 3)]
  | printClose => [(.atomPrint, 4)]
  | operandName => [(.atomName, 1)]
  | functionAtom => [(.atomFunction, 1)]
  | functionParams => [(.atomFunction, 2)]
  | functionBody => [(.atomFunction, 3)]
  | lpar => [(.atomParen, 1)]
  | lparExpr => [(.atomParen, 2)]
  | rpar => [(.atomParen, 3)]

/-- Nothing has been read yet of the productions of a nonterminal that may come; a program comes only
at the start. -/
def has (s : State) (p : Production) : Nat → Bool
  | 0 => (s.move? (.non p.lhs)).isSome || (p.lhs = .program && s = .start)
  | n + 1 => s.kernel.contains (p, n + 1)

theorem has_of_move? {s s' : State} {X : Symbol} {p : Production} {n : Nat}
    (h : s.move? X = some s') (hp : s'.has p (n + 1) = true) :
    p.rhs[n]? = some X ∧ s.has p n = true := by
  have hall := forall_of_all (q := fun s => s.moves.all fun m => m.2.kernel.all fun i =>
    i.1.rhs[i.2 - 1]? = some m.1 && s.has i.1 (i.2 - 1)) (by decide +kernel) s
  have hmove := List.all_eq_true.1 hall _ (mem_moves_of_move? h)
  have hitem := List.all_eq_true.1 hmove (p, n + 1) (List.contains_iff_mem.1 hp)
  simpa using hitem

theorem has_of_done? {s : State} {p : Production} (h : s.done? = some p) :
    s.has p p.rhs.length = true := by
  have hall := forall_of_all (q := fun s => s.done?.all fun p => s.has p p.rhs.length) (by decide) s
  rw [h] at hall
  exact hall

theorem move?_of_has {s : State} {p : Production} (h : s.has p 0 = true) (hp : p.lhs ≠ .program) :
    ∃ s', s.move? (.non p.lhs) = some s' := by
  simpa [has, hp, Option.isSome_iff_exists] using h

theorem eq_start_of_has {s : State} {p : Production} (h : s.has p 0 = true) (hp : p.lhs = .program) :
    s = .start := by
  simpa [has, hp, move?_program] using h

/-- What a state after a nonterminal admits may stand after that nonterminal. -/
theorem mem_follow_of_admits {s s' : State} {A : Nonterminal} {t : Terminal}
    (h : s.move? (.non A) = some s') (ht : s'.admits t = true) : t ∈ A.follow := by
  have hall := forall_of_all (q := fun s => Nonterminal.all.all fun A =>
    (s.move? (.non A)).all fun s' => Terminal.all.all fun t => !s'.admits t || A.follow.contains t)
    (by decide +kernel) s
  have hmove := List.all_eq_true.1 hall A (Nonterminal.mem_all A)
  rw [h] at hmove
  simpa [ht] using List.all_eq_true.1 hmove t (Terminal.mem_all t)

/-- In every state a terminal can be read or a production is complete. -/
theorem reads_or_done (s : State) :
    (∃ t s', s.move? (.term t) = some s') ∨
      ∃ p, s.done? = some p ∧ ∀ t ∈ p.lhs.follow, s.action? t = some (.reduce p) := by
  have hall := forall_of_all (q := fun s =>
    (Terminal.all.any fun t => (s.move? (.term t)).isSome) ||
      s.done?.any fun p => p.lhs.follow.all fun t => s.action? t = some (.reduce p))
    (by decide +kernel) s
  rcases Bool.or_eq_true_iff.1 hall with h | h
  · obtain ⟨t, -, ht⟩ := List.any_eq_true.1 h
    exact .inl ⟨t, Option.isSome_iff_exists.1 ht⟩
  · refine .inr ?_
    cases hd : s.done? with
    | none =>
      rw [hd] at h
      cases h
    | some p =>
      rw [hd] at h
      exact ⟨p, rfl, fun t ht => of_decide_eq_true (List.all_eq_true.1 h t ht)⟩

end State

namespace Stack

variable {V : Symbol → Type} {stack mid below : Stack V} {p : Production} {n : Nat}

/-- If what is still to be read of a production lies on top of a stack on which the rest of it has
been read, the whole right side comes off. -/
theorem Linked.pop?_rhs {values : Values V (p.rhs.drop n)} (hl : mid.Linked)
    (h : stack.pop? (p.rhs.drop n) = some (values, mid)) (hn : mid.state.has p n = true) :
    ∃ values below, stack.pop? p.rhs = some (values, below) ∧ below.Linked ∧
      below.state.has p 0 = true := by
  induction n generalizing mid with
  | zero => exact ⟨values, mid, h, hl, hn⟩
  | succ n ih =>
    cases mid with
    | nil => cases hn
    | cons e below =>
      obtain ⟨s, X, x⟩ := e
      obtain ⟨hX, hbelow⟩ := State.has_of_move? hl.1 hn
      have hdrop : p.rhs.drop n = X :: p.rhs.drop (n + 1) := by
        obtain ⟨hlt, hget⟩ := List.getElem?_eq_some_iff.1 hX
        rw [List.drop_eq_getElem_cons hlt, hget]
      have hpop : ∃ values, stack.pop? (p.rhs.drop n) = some (values, below) := by
        rw [hdrop]
        exact ⟨_, pop?_cons_of_pop? h⟩
      obtain ⟨values', hpop⟩ := hpop
      exact ih hl.2 hpop hbelow

/-- A complete production comes off the stack. -/
theorem Linked.pop?_of_done? (hl : stack.Linked) (h : stack.state.done? = some p) :
    ∃ values below, stack.pop? p.rhs = some (values, below) ∧ below.Linked ∧
      below.state.has p 0 = true := by
  have hpop : ∃ values, stack.pop? (p.rhs.drop p.rhs.length) = some (values, stack) := by
    rw [List.drop_length]
    exact ⟨(), rfl⟩
  obtain ⟨values, hpop⟩ := hpop
  exact hl.pop?_rhs hpop (State.has_of_done? h)

end Stack

/-! ## The weight of a stack -/

/-- Twelve for a token, and less for a nonterminal the more it can stand for. -/
def Symbol.weight : Symbol → Nat
  | .term _ => 12
  | .non .stmts => 1
  | .non .stmt => 2
  | .non .body => 3
  | .non (.exp .expr) => 3
  | .non (.exp .comparison) => 4
  | .non (.exp .sum) => 5
  | .non (.exp .product) => 6
  | .non (.exp .unary) => 7
  | .non (.exp .call) => 8
  | .non (.exp .atom) => 9
  | .non _ => 0

def Symbol.weights : List Symbol → Nat
  | [] => 0
  | X :: word => X.weight + weights word

theorem Symbol.weights_append (u v : List Symbol) : weights (u ++ v) = weights u + weights v := by
  induction u with
  | nil => simp [weights]
  | cons X u ih => simp [weights, ih, Nat.add_assoc]

theorem Production.weight_lhs (p : Production) (h : p.lhs ≠ .program) :
    (Symbol.non p.lhs).weight < Symbol.weights p.rhs := by
  have hall := forall_of_all (q := fun p => p.lhs = .program ||
    (Symbol.non p.lhs).weight < Symbol.weights p.rhs) (by decide) p
  simpa [h] using hall

/-- Wherever something has been read, there is a production in progress that weighs less than what has
been read of it. -/
theorem State.exists_lighter {s : State} (h : s ≠ .start) :
    ∃ p n, s.has p (n + 1) = true ∧
      (Symbol.non p.lhs).weight < Symbol.weights (p.rhs.take (n + 1)) := by
  have hall := forall_of_all (q := fun s => s = .start || s.kernel.any fun i =>
    0 < i.2 && (Symbol.non i.1.lhs).weight < Symbol.weights (i.1.rhs.take i.2)) (by decide) s
  have hany : s.kernel.any (fun i => 0 < i.2 &&
      (Symbol.non i.1.lhs).weight < Symbol.weights (i.1.rhs.take i.2)) = true := by
    simpa [h] using hall
  obtain ⟨⟨p, k⟩, hmem, hi⟩ := List.any_eq_true.1 hany
  simp only [Bool.and_eq_true, decide_eq_true_eq] at hi
  obtain ⟨n, rfl⟩ : ∃ n, k = n + 1 := ⟨k - 1, by omega⟩
  exact ⟨p, n, List.contains_iff_mem.2 hmem, hi.2⟩

namespace Stack

variable {V : Symbol → Type} {stack below : Stack V}

def weight (stack : Stack V) : Nat := Symbol.weights (stack.map Entry.symbol)

@[simp]
theorem weight_nil : weight ([] : Stack V) = 0 := rfl

theorem weight_cons (s : State) (X : Symbol) (x : V X) (below : Stack V) :
    weight (⟨s, X, x⟩ :: below) = X.weight + below.weight :=
  rfl

theorem weight_of_pop? {word : List Symbol} {values : Values V word}
    (h : stack.pop? word = some (values, below)) :
    stack.weight = below.weight + Symbol.weights word := by
  induction word generalizing below with
  | nil =>
    cases h
    rfl
  | cons X word ih =>
    obtain ⟨s, hp⟩ := pop?_cons h
    rw [ih hp, weight_cons, Symbol.weights]
    omega

/-- Taking a production together makes a stack lighter. -/
theorem weight_reduce_lt {p : Production} {values : Values V p.rhs}
    (h : stack.pop? p.rhs = some (values, below)) (hp : p.lhs ≠ .program) (s : State)
    (v : V (.non p.lhs)) : weight (⟨s, .non p.lhs, v⟩ :: below) < stack.weight := by
  have hlt := p.weight_lhs hp
  rw [weight_of_pop? h, weight_cons]
  omega

end Stack

section Feed

variable {V : Symbol → Type} {build : Build V} {fuel fuel' : Nat} {stack stack' : Stack V}
  {t : Terminal} {v : V (.term t)}

/-- More fuel than a stack is heavy changes nothing, not even a refusal. -/
theorem feed_enough (h : stack.weight < fuel) (h' : stack.weight < fuel') :
    feed build fuel stack t v = feed build fuel' stack t v := by
  induction fuel generalizing fuel' stack with
  | zero => exact absurd h (Nat.not_lt_zero _)
  | succ fuel ih =>
    obtain ⟨k, rfl⟩ : ∃ k, fuel' = k + 1 := ⟨fuel' - 1, by omega⟩
    rw [feed, feed]
    cases stack.state.action? t with
    | none => rfl
    | some action =>
      cases action with
      | shift s => rfl
      | reduce p =>
        dsimp only
        cases hpop : stack.pop? p.rhs with
        | none => rfl
        | some popped =>
          obtain ⟨values, below⟩ := popped
          dsimp only
          by_cases hprog : p.lhs = .program
          · rw [dif_pos hprog, dif_pos hprog]
          · rw [dif_neg hprog, dif_neg hprog]
            cases below.state.move? (.non p.lhs) with
            | none => rfl
            | some s =>
              have hlt := Stack.weight_reduce_lt hpop hprog s (build p values)
              exact ih (by omega) (by omega)

/-- A terminal is refused at once or after a production has been taken together. -/
theorem feed_refused_cases (h : feed build (fuel + 1) stack t v = .refused stack') :
    stack' = stack ∨ ∃ (p : Production) (values : Values V p.rhs) (below : Stack V) (s : State),
      stack.pop? p.rhs = some (values, below) ∧ p.lhs ≠ .program ∧
      below.state.move? (.non p.lhs) = some s ∧
      feed build fuel (⟨s, .non p.lhs, build p values⟩ :: below) t v = .refused stack' := by
  rw [feed] at h
  cases ha : stack.state.action? t with
  | none =>
    rw [ha] at h
    cases h
    exact .inl rfl
  | some action =>
    rw [ha] at h
    cases action with
    | shift s => cases h
    | reduce p =>
      dsimp only at h
      cases hpop : stack.pop? p.rhs with
      | none =>
        rw [hpop] at h
        cases h
        exact .inl rfl
      | some popped =>
        obtain ⟨values, below⟩ := popped
        rw [hpop] at h
        dsimp only at h
        by_cases hprog : p.lhs = .program
        · rw [dif_pos hprog] at h
          cases h
        · rw [dif_neg hprog] at h
          cases hm : (Stack.state below).move? (.non p.lhs) with
          | none =>
            rw [hm] at h
            cases h
            exact .inl rfl
          | some s =>
            rw [hm] at h
            exact .inr ⟨p, values, below, s, hpop, hprog, hm, h⟩

/-- Only the end of the text ends a program. -/
theorem feed_finished_eof {value : V (.non .program)}
    (h : feed build fuel stack t v = .finished value) : t = .eof := by
  induction fuel generalizing stack with
  | zero => cases h
  | succ fuel ih =>
    have hr : ∀ s, feed build (fuel + 1) stack t v ≠ .refused s := by simp [h]
    rcases feed_cases hr with ⟨s, ha⟩ | ⟨p, values, below, ha, hp, hprog | ⟨hprog, s, hm⟩⟩
    · rw [feed_shift ha] at h
      cases h
    · have ht := (State.done?_of_action? ha).2
      rw [hprog] at ht
      exact List.mem_singleton.1 ht
    · rw [feed_reduce ha hp hprog hm] at h
      exact ih h

theorem weight_of_feed_read (h : feed build fuel stack t v = .read stack') :
    stack'.weight ≤ stack.weight + 12 := by
  induction fuel generalizing stack with
  | zero => cases h
  | succ fuel ih =>
    have hr : ∀ s, feed build (fuel + 1) stack t v ≠ .refused s := by simp [h]
    rcases feed_cases hr with ⟨s, ha⟩ | ⟨p, values, below, ha, hp, hprog | ⟨hprog, s, hm⟩⟩
    · rw [feed_shift ha] at h
      cases h
      rw [Stack.weight_cons, Nat.add_comm]
      exact Nat.le_refl _
    · rw [feed_accept ha hp hprog] at h
      cases h
    · rw [feed_reduce ha hp hprog hm] at h
      have hlt := Stack.weight_reduce_lt hp hprog s (build p values)
      have hle := ih h
      omega

end Feed

end Featherweight
