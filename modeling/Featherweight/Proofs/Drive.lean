import Featherweight.Proofs.Derivation
import Featherweight.Proofs.Machine

/-!
# Featherweight.Proofs.Drive

The machine follows every derivation in which each `else` belongs to the nearest branch.

* `Drives n stack tokens d` : from `stack`, the machine reads `tokens` and then ends with the
  derivation `d`, in `n` steps.
* `Tree.Paired` : no branch without `else` ends the first part of one with `else`.
* `Tree.drives` : a derivation of a symbol is read where the symbol may come, if what comes after it
  may follow it.
* `drives_yield` : the tokens of a derivation of a program drive the machine to that derivation.
-/

namespace Featherweight

/-- The kind of the next token, or the end of the text. -/
def ahead (tokens : List Lexeme) : Terminal := (tokens.head?.map Lexeme.kind).getD .eof

inductive Drives : Nat → Stack Tree → List Lexeme → Tree (.non .program) → Prop where
  | shift {n : Nat} {stack : Stack Tree} {l : Lexeme} {rest : List Lexeme} {s : State}
      {d : Tree (.non .program)} : stack.state.action? l.kind = some (.shift s) →
      Drives n (⟨s, .term l.kind, .leaf l.kind l.text⟩ :: stack) rest d →
      Drives (n + 1) stack (l :: rest) d
  | reduce {n : Nat} {stack below : Stack Tree} {rest : List Lexeme} {p : Production}
      {values : Values Tree p.rhs} {s : State} {d : Tree (.non .program)} :
      stack.state.action? (ahead rest) = some (.reduce p) → p.lhs ≠ .program →
      stack.pop? p.rhs = some (values, below) → below.state.move? (.non p.lhs) = some s →
      Drives n (⟨s, .non p.lhs, growing.node p values⟩ :: below) rest d →
      Drives (n + 1) stack rest d
  | accept {n : Nat} {stack below : Stack Tree} {p : Production} {values : Values Tree p.rhs}
      (h : p.lhs = .program) : stack.state.action? .eof = some (.reduce p) →
      stack.pop? p.rhs = some (values, below) → Drives (n + 1) stack [] (h ▸ growing.node p values)

/-! ## Derivations without a dangling `else` -/

mutual

/-- Whether a derivation ends with a branch that could still get an `else`. -/
def Tree.endsOpen : {X : Symbol} → Tree X → Bool
  | _, .leaf _ _ => false
  | _, .node p parts => p = .stmtIf || parts.endsOpen false

/-- The same for the last part, if there is one. -/
def Forest.endsOpen : {word : List Symbol} → Forest word → Bool → Bool
  | _, .nil, last => last
  | _, .cons head tail, _ => tail.endsOpen head.endsOpen

end

/-- Whether the part behind `n` others ends so. -/
def Forest.openAt : Nat → {word : List Symbol} → Forest word → Bool
  | _, _, .nil => false
  | 0, _, .cons head _ => head.endsOpen
  | n + 1, _, .cons _ tail => openAt n tail

/-- The first part of a branch with `else`, which is the fifth symbol of its production, does not
end with a branch without. -/
def Forest.Nearest (p : Production) (parts : Forest p.rhs) : Prop :=
  p = .stmtIfElse → parts.openAt 4 = false

mutual

def Tree.Paired : {X : Symbol} → Tree X → Prop
  | _, .leaf _ _ => True
  | _, .node p parts => Forest.Nearest p parts ∧ parts.Paired

def Forest.Paired : {word : List Symbol} → Forest word → Prop
  | _, .nil => True
  | _, .cons head tail => head.Paired ∧ tail.Paired

end

mutual

/-- The number of steps that a derivation takes. -/
def Tree.steps : {X : Symbol} → Tree X → Nat
  | _, .leaf _ _ => 1
  | _, .node _ parts => parts.steps + 1

def Forest.steps : {word : List Symbol} → Forest word → Nat
  | _, .nil => 0
  | _, .cons head tail => head.steps + tail.steps

end

/-- Read the parts of a word one after the other. -/
def Stack.pushAll? : {word : List Symbol} → Forest word → Stack Tree → Option (Stack Tree)
  | _, .nil, stack => some stack
  | _, @Forest.cons X _ head tail, stack =>
    (stack.state.move? X).bind fun s => pushAll? tail (⟨s, X, head⟩ :: stack)

def Forest.toValues : {word : List Symbol} → Forest word → Values Tree word
  | _, .nil => ()
  | _, .cons head tail => (head, tail.toValues)

theorem Forest.ofValues_toValues {word : List Symbol} (parts : Forest word) :
    ofValues word parts.toValues = parts := by
  induction word with
  | nil =>
    cases parts
    rfl
  | cons X word ih =>
    cases parts with
    | cons head tail => simp only [toValues, ofValues, ih]

theorem Stack.pushAll?_of_path? {word : List Symbol} (parts : Forest word) {stack : Stack Tree}
    {e : State} (h : stack.state.path? word = some e) :
    ∃ stack', pushAll? parts stack = some stack' ∧ stack'.state = e := by
  induction word generalizing stack with
  | nil =>
    cases parts
    cases h
    exact ⟨stack, rfl, rfl⟩
  | cons X word ih =>
    cases parts with
    | cons head tail =>
      obtain ⟨s, hs, hpath⟩ := Option.bind_eq_some_iff.1 h
      have hnext : (Stack.state (⟨s, X, head⟩ :: stack)).path? word = some e := hpath
      obtain ⟨stack', hpush, he⟩ := ih tail hnext
      exact ⟨stack', by rw [pushAll?, hs, Option.bind_some, hpush], he⟩

/-- What has been read is taken off as it was. -/
theorem Stack.pop?_of_pushAll? {word : List Symbol} {parts : Forest word}
    {stack stack' : Stack Tree} (h : pushAll? parts stack = some stack') :
    stack'.pop? word = some (parts.toValues, stack) := by
  induction word generalizing stack with
  | nil =>
    cases parts
    cases h
    rfl
  | cons X word ih =>
    cases parts with
    | cons head tail =>
      obtain ⟨s, hs, hpush⟩ := Option.bind_eq_some_iff.1 h
      rw [pop?, ih hpush]
      simp only [dite_true]
      rfl

/-! ## What comes first and what comes after -/

mutual

/-- Every derivation but that of an empty program starts with a token. -/
theorem Tree.yield_first {X : Symbol} (d : Tree X) (hX : X ≠ .non .program) :
    ∃ l rest, d.yield = l :: rest ∧ l.kind ∈ X.first := by
  match d with
  | .leaf kind text => exact ⟨⟨kind, text⟩, [], rfl, List.mem_singleton_self _⟩
  | .node p parts =>
    have hne : p.rhs ≠ [] := Production.rhs_ne_nil (by
      rintro rfl
      exact hX rfl)
    obtain ⟨Y, word, l, rest, hrhs, hl, hk⟩ := parts.yield_first p.program_not_mem_rhs hne
    exact ⟨l, rest, hl, p.first_rhs hrhs hk⟩

theorem Forest.yield_first {word : List Symbol} (parts : Forest word)
    (hprog : Symbol.non .program ∉ word) (hne : word ≠ []) :
    ∃ X word' l rest, word = X :: word' ∧ parts.yield = l :: rest ∧ l.kind ∈ X.first := by
  match parts with
  | .nil => exact absurd rfl hne
  | @Forest.cons X word head tail =>
    have hX : X ≠ .non .program := fun h => hprog (h ▸ List.mem_cons_self)
    obtain ⟨l, rest, hl, hk⟩ := head.yield_first hX
    exact ⟨X, word, l, rest ++ tail.yield, rfl, by rw [Forest.yield, hl, List.cons_append], hk⟩

end

theorem ahead_forest {word : List Symbol} (parts : Forest word) (rest : List Lexeme)
    (hprog : Symbol.non .program ∉ word) :
    ahead (parts.yield ++ rest) ∈ firsts (ahead rest) word := by
  cases parts with
  | nil => exact List.mem_singleton_self _
  | @cons X word head tail =>
    have hX : X ≠ .non .program := fun h => hprog (h ▸ List.mem_cons_self)
    obtain ⟨l, more, hl, hk⟩ := head.yield_first hX
    rw [Forest.yield, hl]
    exact hk

theorem Tree.endsOpen_term {t : Terminal} (d : Tree (.term t)) : d.endsOpen = false := by
  cases d with
  | leaf kind text => rfl

/-- No part that can still get an `else` stands before one. -/
def Forest.Guarded (rest : List Lexeme) : {word : List Symbol} → Forest word → Prop
  | _, .nil => True
  | _, .cons head tail =>
    (ahead (tail.yield ++ rest) = .keyword .elseWord → head.endsOpen = false) ∧
      Guarded rest tail

theorem Forest.guarded_of_no_else {word : List Symbol} (parts : Forest word) {rest : List Lexeme}
    {last : Bool} (hprog : Symbol.non .program ∉ word)
    (hno : Symbol.term (.keyword .elseWord) ∉ word)
    (h : ahead rest = .keyword .elseWord → parts.endsOpen last = false) : parts.Guarded rest := by
  induction word generalizing last with
  | nil =>
    cases parts
    trivial
  | cons X word ih =>
    cases parts with
    | cons head tail =>
      have hprog' : Symbol.non .program ∉ word := fun hm => hprog (List.mem_cons_of_mem _ hm)
      have hno' : Symbol.term (.keyword .elseWord) ∉ word := fun hm =>
        hno (List.mem_cons_of_mem _ hm)
      refine ⟨fun helse => ?_, ih tail hprog' hno' h⟩
      have hfirst := ahead_forest tail rest hprog'
      rw [helse] at hfirst
      cases tail with
      | nil => exact h (List.mem_singleton.1 hfirst).symm
      | cons =>
        have hX := Symbol.eq_of_else_mem_first hfirst
        exact absurd (hX ▸ List.mem_cons_self) hno'

/-- The parts of a production are guarded, if the whole is. -/
theorem Forest.guarded {p : Production} {parts : Forest p.rhs} {rest : List Lexeme}
    (hn : Nearest p parts)
    (h : ahead rest = .keyword .elseWord → (Tree.node p parts).endsOpen = false) :
    parts.Guarded rest := by
  have hlast : ahead rest = .keyword .elseWord → parts.endsOpen false = false := by
    intro helse
    have := h helse
    rw [Tree.endsOpen, Bool.or_eq_false_iff] at this
    exact this.2
  by_cases hp : p = .stmtIfElse
  · subst hp
    match parts with
    | .cons i (.cons l (.cons test (.cons r (.cons yes (.cons el (.cons no .nil)))))) =>
      have hr : ahead (r.yield ++ (yes.yield ++ (el.yield ++ (no.yield ++ rest)))) = .rpar := by
        obtain ⟨x, more, hx, hk⟩ := r.yield_first (by simp)
        rw [hx]
        exact List.mem_singleton.1 hk
      refine ⟨fun _ => i.endsOpen_term, fun _ => l.endsOpen_term, fun helse => ?_,
        fun _ => r.endsOpen_term, fun _ => hn rfl, fun _ => el.endsOpen_term, hlast, trivial⟩
      simp only [Forest.yield, List.append_assoc, List.nil_append] at helse
      rw [hr] at helse
      cases helse
  · have hno : Symbol.term (.keyword .elseWord) ∉ p.rhs := by
      have hall := Production.forall_of_all (q := fun p =>
        p = .stmtIfElse || !p.rhs.contains (.term (.keyword .elseWord))) (by decide) p
      simpa [hp] using hall
    exact parts.guarded_of_no_else p.program_not_mem_rhs hno hlast

/-! ## Following a derivation -/

mutual

theorem Tree.drives {X : Symbol} (d : Tree X) {n : Nat} {stack : Stack Tree} {s : State}
    {rest : List Lexeme} {whole : Tree (.non .program)} (hp : d.Paired)
    (hmove : stack.state.move? X = some s) (hfollow : ∀ A, X = .non A → ahead rest ∈ A.follow)
    (helse : ahead rest = .keyword .elseWord → d.endsOpen = false)
    (h : Drives n (⟨s, X, d⟩ :: stack) rest whole) :
    Drives (n + d.steps) stack (d.yield ++ rest) whole := by
  match d with
  | .leaf kind text =>
    exact Drives.shift (l := ⟨kind, text⟩) (State.action?_of_move? hmove) h
  | .node p parts =>
    obtain ⟨e, hpath, hdone⟩ := State.path?_rhs hmove
    obtain ⟨stack', hpush, rfl⟩ := Stack.pushAll?_of_path? parts hpath
    have hf : ahead rest ∈ p.lhs.follow := hfollow _ rfl
    have hthen : stack'.state = .ifThen → ahead rest ≠ .keyword .elseWord := by
      intro hs hel
      have hopen := helse hel
      rw [hs] at hdone
      cases hdone
      simp [Tree.endsOpen] at hopen
    have hprog : p.lhs ≠ .program := by
      intro hl
      rw [hl, State.move?_program] at hmove
      cases hmove
    have hnode : growing.node p parts.toValues = .node p parts := by
      show Tree.node p (Forest.ofValues p.rhs parts.toValues) = _
      rw [Forest.ofValues_toValues]
    have hreduce : Drives (n + 1) stack' rest whole := by
      refine .reduce (State.action?_of_done? hdone hf hthen) hprog
        (Stack.pop?_of_pushAll? hpush) hmove ?_
      rwa [hnode]
    have := parts.drives hp.2 hpush p.program_not_mem_rhs (p.fits_rhs hf)
      (Forest.guarded hp.1 helse) hreduce
    rw [Tree.steps, Nat.add_comm parts.steps 1, ← Nat.add_assoc]
    exact this

theorem Forest.drives {word : List Symbol} (parts : Forest word) {n : Nat}
    {stack stack' : Stack Tree} {rest : List Lexeme} {whole : Tree (.non .program)}
    (hp : parts.Paired) (hpush : Stack.pushAll? parts stack = some stack')
    (hprog : Symbol.non .program ∉ word) (hfits : Production.fits (ahead rest) word = true)
    (hg : parts.Guarded rest) (h : Drives n stack' rest whole) :
    Drives (n + parts.steps) stack (parts.yield ++ rest) whole := by
  match parts with
  | .nil =>
    cases hpush
    exact h
  | @Forest.cons X word head tail =>
    obtain ⟨s, hmove, hpush⟩ := Option.bind_eq_some_iff.1 hpush
    have hprog' : Symbol.non .program ∉ word := fun hm => hprog (List.mem_cons_of_mem _ hm)
    have hfits' : Production.fits (ahead rest) word = true ∧
        ∀ A, X = .non A → ahead (tail.yield ++ rest) ∈ A.follow := by
      cases X with
      | term t => exact ⟨hfits, fun A hA => by cases hA⟩
      | non B =>
        rw [Production.fits, Bool.and_eq_true] at hfits
        refine ⟨hfits.2, fun A hA => ?_⟩
        cases hA
        simpa using List.all_eq_true.1 hfits.1 _ (ahead_forest tail rest hprog')
    have htail := tail.drives hp.2 hpush hprog' hfits'.1 hg.2 h
    have hhead := head.drives hp.1 hmove hfits'.2 hg.1 htail
    rw [Forest.yield, List.append_assoc, Forest.steps, Nat.add_comm head.steps, ← Nat.add_assoc]
    exact hhead

end

/-! ## The number of steps -/

/-- Twelve steps for each token are more than enough; the rank is what a symbol leaves over. -/
def Symbol.rank : Symbol → Nat
  | .term _ => 11
  | .non .stmts => 1
  | .non .stmt => 2
  | .non .body => 3
  | .non (.exp .expr) => 1
  | .non (.exp .comparison) => 2
  | .non (.exp .sum) => 3
  | .non (.exp .product) => 4
  | .non (.exp .unary) => 5
  | .non (.exp .call) => 6
  | .non (.exp .atom) => 7
  | .non _ => 0

def Symbol.ranks : List Symbol → Nat
  | [] => 0
  | X :: word => X.rank + ranks word

theorem Production.rank_rhs (p : Production) (h : p.lhs ≠ .program) :
    (Symbol.non p.lhs).rank + 1 ≤ Symbol.ranks p.rhs := by
  have hall := forall_of_all (q := fun p => p.lhs = .program ||
    (Symbol.non p.lhs).rank + 1 ≤ Symbol.ranks p.rhs) (by decide) p
  simpa [h] using hall

mutual

theorem Tree.steps_le {X : Symbol} (d : Tree X) (hX : X ≠ .non .program) :
    d.steps + X.rank ≤ 12 * d.yield.length := by
  match d with
  | .leaf kind text => exact Nat.le_refl _
  | .node p parts =>
    have hp : p.lhs ≠ .program := fun h => hX (by rw [h])
    have hrank := p.rank_rhs hp
    have hparts := parts.steps_le p.program_not_mem_rhs
    rw [Tree.steps, Tree.yield]
    omega

theorem Forest.steps_le {word : List Symbol} (parts : Forest word)
    (hprog : Symbol.non .program ∉ word) :
    parts.steps + Symbol.ranks word ≤ 12 * parts.yield.length := by
  match parts with
  | .nil => exact Nat.le_refl _
  | @Forest.cons X word head tail =>
    have hhead := head.steps_le fun h => hprog (h ▸ List.mem_cons_self)
    have htail := tail.steps_le fun hm => hprog (List.mem_cons_of_mem _ hm)
    rw [Forest.steps, Forest.yield, Symbol.ranks, List.length_append]
    omega

end

/-- A derivation of a nonterminal comes from one of its productions. -/
theorem Tree.exists_node {A : Nonterminal} (d : Tree (.non A)) :
    ∃ (p : Production) (h : p.lhs = A) (parts : Forest p.rhs), d = h ▸ Tree.node p parts := by
  have hgen : ∀ (X : Symbol) (d : Tree X) (hX : X = .non A),
      ∃ (p : Production) (h : p.lhs = A) (parts : Forest p.rhs),
        hX ▸ d = h ▸ Tree.node p parts := by
    intro X d hX
    cases d with
    | leaf kind text => cases hX
    | node p parts =>
      obtain rfl : p.lhs = A := by simpa using hX
      exact ⟨p, rfl, parts, rfl⟩
  exact hgen _ d rfl

/-- A program is empty or made of statements. -/
theorem Tree.program_cases (d : Tree (.non .program)) :
    d = .node .programEmpty .nil ∨
      ∃ stmts : Tree (.non .stmts), d = .node .programStmts (.cons stmts .nil) := by
  obtain ⟨p, hp, parts, rfl⟩ := d.exists_node
  have hcases : p = .programEmpty ∨ p = .programStmts := by
    have hall := Production.forall_of_all (q := fun p =>
      p.lhs ≠ .program || p = .programEmpty || p = .programStmts) (by decide) p
    simpa [hp] using hall
  rcases hcases with rfl | rfl
  · match parts with
    | .nil => exact .inl rfl
  · match parts with
    | .cons stmts .nil => exact .inr ⟨stmts, rfl⟩

/-- The tokens of a derivation of a program drive the machine to that derivation. -/
theorem drives_yield (d : Tree (.non .program)) (hp : d.Paired) :
    Drives d.steps [] d.yield d := by
  rcases d.program_cases with rfl | ⟨stmts, rfl⟩
  · have hpop : Stack.pop? Production.programEmpty.rhs ([] : Stack Tree) = some ((), []) := rfl
    exact Drives.accept rfl rfl hpop
  · have hend : Drives 1 [⟨.stmts, .non .stmts, stmts⟩] []
        (.node .programStmts (.cons stmts .nil)) := by
      have hpop : Stack.pop? Production.programStmts.rhs [⟨.stmts, .non .stmts, stmts⟩] =
          some ((stmts, ()), []) := rfl
      exact Drives.accept rfl rfl hpop
    have hmove : (Stack.state ([] : Stack Tree)).move? (.non .stmts) = some .stmts := rfl
    have hfollow : ∀ A, Symbol.non .stmts = .non A → ahead [] ∈ A.follow := by
      rintro A ⟨⟩
      decide
    have helse : ahead [] = .keyword .elseWord → stmts.endsOpen = false := by
      intro h
      cases h
    have h := stmts.drives hp.2.1 hmove hfollow helse hend
    rw [Nat.add_comm] at h
    simpa only [Tree.yield, Forest.yield, Tree.steps, Forest.steps, Nat.add_zero] using h

theorem Tree.program_steps_le (d : Tree (.non .program)) :
    d.steps ≤ 12 * d.yield.length + 1 := by
  rcases d.program_cases with rfl | ⟨stmts, rfl⟩
  · exact Nat.le_refl _
  · have h := stmts.steps_le (by simp)
    simp only [Tree.steps, Forest.steps, Tree.yield, Forest.yield, List.append_nil]
    omega

/-! ## Feeding the tokens -/

namespace Drives

variable {n fuel : Nat} {stack : Stack Tree} {d : Tree (.non .program)}

/-- The state admits the token that comes next. -/
theorem admits {l : Lexeme} {rest : List Lexeme} (h : Drives n stack (l :: rest) d) :
    stack.state.admits l.kind = true := by
  cases h with
  | shift ha _ => simp [State.admits, ha]
  | reduce ha _ _ _ _ =>
    have hl : ahead (l :: rest) = l.kind := rfl
    rw [hl] at ha
    simp [State.admits, ha]

theorem feed_read {l : Lexeme} {rest : List Lexeme} (h : Drives n stack (l :: rest) d)
    (hn : n ≤ fuel) :
    ∃ m stack', feed growing.node fuel stack l.kind (.leaf l.kind l.text) = .read stack' ∧
      Drives m stack' rest d ∧ m ≤ n := by
  generalize htokens : l :: rest = tokens at h
  induction h generalizing fuel with
  | @shift n stack l' rest' s d ha hd =>
    cases htokens
    obtain ⟨k, rfl⟩ : ∃ k, fuel = k + 1 := ⟨fuel - 1, by omega⟩
    exact ⟨n, _, feed_shift ha, hd, Nat.le_succ n⟩
  | @reduce n stack below rest' p values s d ha hprog hpop hmove _ ih =>
    subst htokens
    obtain ⟨k, rfl⟩ : ∃ k, fuel = k + 1 := ⟨fuel - 1, by omega⟩
    have hk : n ≤ k := by omega
    obtain ⟨m, stack', hf, hd, hm⟩ := ih hk rfl
    exact ⟨m, stack', (feed_reduce ha hpop hprog hmove).trans hf, hd, by omega⟩
  | accept => cases htokens

theorem feed_finished (h : Drives n stack [] d) (hn : n ≤ fuel) (v : Tree (.term .eof)) :
    feed growing.node fuel stack .eof v = .finished d := by
  generalize htokens : ([] : List Lexeme) = tokens at h
  induction h generalizing fuel with
  | shift => cases htokens
  | @reduce n stack below rest p values s d ha hprog hpop hmove _ ih =>
    subst htokens
    obtain ⟨k, rfl⟩ : ∃ k, fuel = k + 1 := ⟨fuel - 1, by omega⟩
    exact (feed_reduce ha hpop hprog hmove).trans (ih (by omega) rfl)
  | @accept n stack below p values hp ha hpop =>
    obtain ⟨k, rfl⟩ : ∃ k, fuel = k + 1 := ⟨fuel - 1, by omega⟩
    exact feed_accept ha hpop hp

end Drives

end Featherweight
