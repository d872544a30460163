import Featherweight.Proofs.Drive
import Featherweight.Proofs.Soundness

/-!
# Featherweight.Proofs.Seam

Reading one program text behind another.

* `Joins first u u'` : the statements `u'` are those of `first` and then those of `u`.
* `Over first a b` : the stack `b` is the stack `a` of a second program on top of the statements
  `first`.
* `Over.feed` : one terminal does the same on both stacks.
* `Scans.join` : two texts with a line feed between them are read as the statements of both.

The machine starts a second program in `State.stmts` where it would start it in `State.start`. Both
states read the same tokens. They part where a statement is complete, which is the first of its list
in one case and one more in the other.
-/

namespace Featherweight

structure Joins (first u u' : Tree (.non .stmts)) : Prop where
  sense : u'.sense = List.append first.sense u.sense
  height : u'.height = max first.height u.height

/-- The program of a list of statements. -/
abbrev Tree.ofStmts (u : Tree (.non .stmts)) : Tree (.non .program) :=
  .node .programStmts (.cons u .nil)

theorem Tree.stmts_cases (u : Tree (.non .stmts)) :
    (∃ s, u = .node .stmtsOne (.cons s .nil)) ∨
      ∃ (v : Tree (.non .stmts)) (s : Tree (.non .stmt)),
        u = .node .stmtsMore (.cons v (.cons s .nil)) := by
  obtain ⟨p, hp, parts, rfl⟩ := u.exists_node
  have hall := Production.forall_of_all (q := fun p =>
    p.lhs ≠ .stmts || p = .stmtsOne || p = .stmtsMore) (by decide) p
  have hcases : p = .stmtsOne ∨ p = .stmtsMore := by simpa [hp] using hall
  rcases hcases with rfl | rfl
  · match parts with
    | .cons s .nil => exact .inl ⟨s, rfl⟩
  · match parts with
    | .cons v (.cons s .nil) => exact .inr ⟨v, s, rfl⟩

inductive Over (first : Tree (.non .stmts)) : Stack Tree → Stack Tree → Prop where
  | start : Over first [] [⟨.stmts, .non .stmts, first⟩]
  | stmt (s : Tree (.non .stmt)) :
      Over first [⟨.stmt, .non .stmt, s⟩]
        [⟨.stmtsStmt, .non .stmt, s⟩, ⟨.stmts, .non .stmts, first⟩]
  | stmts {u u' : Tree (.non .stmts)} : Joins first u u' →
      Over first [⟨.stmts, .non .stmts, u⟩] [⟨.stmts, .non .stmts, u'⟩]
  -- A statement at the bottom, alone or in a list, is one of the two cases above.
  | push {a b : Stack Tree} (e : Entry Tree) : Over first a b →
      (a = [] → e.symbol ≠ .non .stmt ∧ e.symbol ≠ .non .stmts) → Over first (e :: a) (e :: b)

/-! ## The two states in which a program starts -/

namespace State

theorem stmts_move?_term (t : Terminal) : stmts.move? (.term t) = start.move? (.term t) := by
  have h : Terminal.all.all (fun t => stmts.move? (.term t) = start.move? (.term t)) = true := by
    decide
  simpa using List.all_eq_true.1 h t (Terminal.mem_all t)

theorem stmts_move?_non {A : Nonterminal} (hs : A ≠ .stmts) (h : A ≠ .stmt) :
    stmts.move? (.non A) = start.move? (.non A) := by
  have hall : Nonterminal.all.all (fun A => A = .stmts || A = .stmt ||
      stmts.move? (.non A) = start.move? (.non A)) = true := by decide
  simpa [hs, h] using List.all_eq_true.1 hall A (Nonterminal.mem_all A)

/-- What may stand before the end may stand before a statement, except a whole program. -/
theorem mem_follow_of_start {t : Terminal} {s : State} (h : start.move? (.term t) = some s)
    {A : Nonterminal} (hA : A ≠ .program) (hend : .eof ∈ A.follow) : t ∈ A.follow := by
  have hall : Terminal.all.all (fun t => (start.move? (.term t)).isNone ||
      Nonterminal.all.all fun A => A = .program || .eof ∉ A.follow || t ∈ A.follow) = true := by
    decide
  have ht := List.all_eq_true.1 hall t (Terminal.mem_all t)
  rw [h] at ht
  have hall' : Nonterminal.all.all (fun A => A = .program || .eof ∉ A.follow || t ∈ A.follow) =
      true := by simpa using ht
  simpa [hA, hend] using List.all_eq_true.1 hall' A (Nonterminal.mem_all A)

theorem stmt_action? (t : Terminal) :
    stmt.action? t = if t ∈ Nonterminal.stmts.follow then some (.reduce .stmtsOne) else none := rfl

theorem stmtsStmt_action? (t : Terminal) :
    stmtsStmt.action? t =
      if t ∈ Nonterminal.stmts.follow then some (.reduce .stmtsMore) else none := rfl

end State

/-- The second production for lists of statements, on the stack. -/
theorem feed_stmtsMore {s : State} (u : Tree (.non .stmts)) (x : Tree (.non .stmt)) {t : Terminal}
    (h : s.action? t = some (.reduce .stmtsMore)) (fuel : Nat) (v : Tree (.term t)) :
    feed growing.node (fuel + 1) [⟨s, .non .stmt, x⟩, ⟨.stmts, .non .stmts, u⟩] t v =
      feed growing.node fuel
        [⟨.stmts, .non .stmts, .node .stmtsMore (.cons u (.cons x .nil))⟩] t v := by
  have hpop : Stack.pop? Production.stmtsMore.rhs
      [⟨s, .non .stmt, x⟩, ⟨.stmts, .non .stmts, u⟩] = some ((u, x, ()), []) := rfl
  refine feed_reduce ?_ hpop (by decide) rfl
  exact h

theorem feed_programStmts (u : Tree (.non .stmts)) {t : Terminal}
    (h : State.stmts.action? t = some (.reduce .programStmts)) (fuel : Nat) (v : Tree (.term t)) :
    feed growing.node (fuel + 1) [⟨.stmts, .non .stmts, u⟩] t v =
      .finished (.ofStmts u) := by
  have hpop : Stack.pop? Production.programStmts.rhs [⟨.stmts, .non .stmts, u⟩] =
      some ((u, ()), []) := rfl
  refine feed_accept ?_ hpop rfl
  exact h

theorem Joins.one (first : Tree (.non .stmts)) (s : Tree (.non .stmt)) :
    Joins first (.node .stmtsOne (.cons s .nil)) (.node .stmtsMore (.cons first (.cons s .nil))) := by
  constructor
  · rfl
  · simp [Tree.height, Forest.height, Production.isLevel]

theorem Joins.more {first u u' : Tree (.non .stmts)} (h : Joins first u u') (s : Tree (.non .stmt)) :
    Joins first (.node .stmtsMore (.cons u (.cons s .nil)))
      (.node .stmtsMore (.cons u' (.cons s .nil))) := by
  constructor
  · show List.append u'.sense [s.sense] = List.append first.sense (List.append u.sense [s.sense])
    rw [h.sense]
    exact List.append_assoc _ _ _
  · simp [Tree.height, Forest.height, Production.isLevel, h.height, Nat.max_assoc]

namespace Over

variable {first : Tree (.non .stmts)} {a b : Stack Tree}

theorem token (s : State) (t : Terminal) (v : Tree (.term t)) :
    Over first [⟨s, .term t, v⟩] [⟨s, .term t, v⟩, ⟨.stmts, .non .stmts, first⟩] :=
  .push _ .start fun _ => by simp

theorem admits (h : Over first a b) (ha : a ≠ []) (t : Terminal) :
    b.state.admits t = a.state.admits t := by
  cases h with
  | start => exact absurd rfl ha
  | stmt s =>
    show State.stmtsStmt.admits t = State.stmt.admits t
    unfold State.admits
    rw [State.stmt_action?, State.stmtsStmt_action?]
    split <;> rfl
  | stmts => rfl
  | push => rfl

/-- Where a nonterminal leads, on both stacks. -/
theorem move? (h : Over first a b) {A : Nonterminal} {s : State}
    (hm : a.state.move? (.non A) = some s) (hA : a = [] → A ≠ .stmts) (tree : Tree (.non A)) :
    ∃ s', b.state.move? (.non A) = some s' ∧
      Over first (⟨s, .non A, tree⟩ :: a) (⟨s', .non A, tree⟩ :: b) := by
  cases h with
  | start =>
    have hs := hA rfl
    by_cases hstmt : A = .stmt
    · subst hstmt
      cases hm
      exact ⟨.stmtsStmt, rfl, .stmt tree⟩
    · refine ⟨s, (State.stmts_move?_non hs hstmt).trans hm, .push _ .start fun _ => ?_⟩
      exact ⟨by simpa using hstmt, by simpa using hs⟩
  | stmt => cases hm
  | stmts hu => exact ⟨s, hm, .push _ (.stmts hu) nofun⟩
  | push e ho he => exact ⟨s, hm, .push _ (.push e ho he) nofun⟩

theorem shift (h : Over first a b) {t : Terminal} {s : State}
    (ha : a.state.action? t = some (.shift s)) : b.state.action? t = some (.shift s) := by
  cases h with
  | start =>
    refine State.action?_of_move? ?_
    exact (State.stmts_move?_term t).trans (State.move?_of_action? ha)
  | stmt => cases State.move?_of_action? ha
  | stmts => exact ha
  | push => exact ha

/-- A word comes off both stacks alike, unless it starts with all statements of the second
program. -/
theorem pop? (h : Over first a b) {word : List Symbol} {values : Values Tree word}
    {below : Stack Tree} (hp : a.pop? word = some (values, below)) :
    (∃ below', b.pop? word = some (values, below') ∧ Over first below below') ∨
      below = [] ∧ word.head? = some (.non .stmts) := by
  induction word generalizing below with
  | nil =>
    cases hp
    exact .inl ⟨b, rfl, h⟩
  | cons X word ih =>
    obtain ⟨s, hrest⟩ := Stack.pop?_cons hp
    rcases ih hrest with ⟨below', hb, ho⟩ | ⟨hnil, -⟩
    · cases ho with
      | stmt => exact .inl ⟨_, Stack.pop?_cons_of_pop? hb, .start⟩
      | stmts => exact .inr ⟨rfl, rfl⟩
      | push _ ho => exact .inl ⟨_, Stack.pop?_cons_of_pop? hb, ho⟩
    · cases hnil

/-- A production that is completed on the one stack is completed on the other. -/
theorem reduce (h : Over first a b) {t : Terminal} {p : Production} {values : Values Tree p.rhs}
    {below : Stack Tree} {s : State} (ha : a.state.action? t = some (.reduce p))
    (hp : a.pop? p.rhs = some (values, below)) (hprog : p.lhs ≠ .program)
    (hm : below.state.move? (.non p.lhs) = some s) :
    ∃ b', Over first (⟨s, .non p.lhs, growing.node p values⟩ :: below) b' ∧
      ∀ fuel v, feed growing.node (fuel + 1) b t v = feed growing.node fuel b' t v := by
  obtain ⟨hdone, hfollow⟩ := State.done?_of_action? ha
  cases h with
  | start =>
    cases hdone
    exact absurd rfl hprog
  | stmts =>
    cases hdone
    exact absurd rfl hprog
  | stmt stmt =>
    cases hdone
    cases hp
    cases hm
    have hb : State.stmtsStmt.action? t = some (.reduce .stmtsMore) := if_pos hfollow
    exact ⟨_, .stmts (Joins.one first stmt), feed_stmtsMore first stmt hb⟩
  | @push a b e ho he =>
    by_cases hmore : p = .stmtsMore
    · -- At the bottom the list that grows is that of both programs.
      subst hmore
      obtain ⟨s₁, hp₁⟩ := Stack.pop?_cons hp
      obtain ⟨s₂, hp₂⟩ := Stack.pop?_cons hp₁
      cases hp₂
      cases ho with
      | stmts hu =>
        cases hm
        exact ⟨_, .stmts (hu.more _), feed_stmtsMore _ _ ha⟩
      | push e₁ ho₁ he₁ =>
        have hne : below ≠ [] := fun hnil => (he₁ hnil).2 rfl
        obtain ⟨s', hm', hover⟩ := ho₁.move? hm (fun hnil => absurd hnil hne)
          (growing.node .stmtsMore values)
        exact ⟨_, hover, fun fuel v => feed_reduce (p := .stmtsMore) ha rfl hprog hm'⟩
    · rcases (Over.push e ho he).pop? hp with ⟨below', hb, ho'⟩ | ⟨-, hhead⟩
      · have hlhs : below = [] → p.lhs ≠ .stmts := by
          intro hnil hstmts
          have hall := Production.forall_of_all (q := fun p =>
            p.lhs ≠ .stmts || p = .stmtsMore || p = .stmtsOne) (by decide) p
          obtain rfl : p = .stmtsOne := by simpa [hstmts, hmore] using hall
          obtain ⟨s₁, hp₁⟩ := Stack.pop?_cons hp
          cases hp₁
          exact (he hnil).1 rfl
        obtain ⟨s', hm', hover⟩ := ho'.move? hm hlhs (growing.node p values)
        exact ⟨_, hover, fun fuel v => feed_reduce ha hb hprog hm'⟩
      · have hall := Production.forall_of_all (q := fun p =>
          p.rhs.head? ≠ some (.non .stmts) || p = .stmtsMore || p.lhs = .program) (by decide) p
        simp [hhead, hmore, hprog] at hall

/-- One terminal does the same on both stacks. -/
theorem feed (h : Over first a b) (hl : a.Linked) {fuel : Nat} {t : Terminal}
    {v : Tree (.term t)} (ht : a = [] → t ≠ .eof)
    (hr : ∀ s, Featherweight.feed growing.node fuel a t v ≠ .refused s) :
    (∃ a' b', Featherweight.feed growing.node fuel a t v = .read a' ∧
      Featherweight.feed growing.node fuel b t v = .read b' ∧ Over first a' b') ∨
    (∃ u u', Featherweight.feed growing.node fuel a t v = .finished (.ofStmts u) ∧
      Featherweight.feed growing.node fuel b t v = .finished (.ofStmts u') ∧ Joins first u u') := by
  induction fuel generalizing a b with
  | zero => exact absurd rfl (hr a)
  | succ fuel ih =>
    rcases feed_cases hr with ⟨s, ha⟩ | ⟨p, values, below, ha, hp, hprog | ⟨hprog, s, hm⟩⟩
    · exact .inl ⟨_, _, feed_shift ha, feed_shift (h.shift ha), .push _ h fun _ => by simp⟩
    · obtain ⟨hdone, hfollow⟩ := State.done?_of_action? ha
      obtain ⟨rfl, ⟨rfl, rfl⟩ | ⟨rfl, u, rfl⟩⟩ := hl.accept_cases hdone hprog hp
      · exact absurd (List.mem_singleton.1 hfollow) (ht rfl)
      · cases h with
        | @stmts _ u' hu =>
          exact .inr ⟨u, u', feed_programStmts u ha fuel v, feed_programStmts u' ha fuel v, hu⟩
        | push _ _ he => exact absurd rfl (he rfl).2
    · obtain ⟨b', ho, hfeed⟩ := h.reduce ha hp hprog hm
      rw [feed_reduce ha hp hprog hm] at hr ⊢
      rw [hfeed]
      exact ih ho ⟨hm, hl.pop? hp⟩ nofun hr

theorem read (h : Over first a b) (hl : a.Linked) (ha : a ≠ []) {fuel : Nat} {t : Terminal}
    {v : Tree (.term t)} {a' : Stack Tree}
    (hf : Featherweight.feed growing.node fuel a t v = .read a') :
    ∃ b', Featherweight.feed growing.node fuel b t v = .read b' ∧ Over first a' b' := by
  have hr : ∀ s, Featherweight.feed growing.node fuel a t v ≠ .refused s := by simp [hf]
  rcases h.feed hl (fun hnil => absurd hnil ha) hr with ⟨a₁, b₁, h₁, h₂, ho⟩ | ⟨u, u', h₁, -, -⟩
  · cases hf.symm.trans h₁
    exact ⟨b₁, h₂, ho⟩
  · cases hf.symm.trans h₁

theorem finished (h : Over first a b) (hl : a.Linked) (ha : a ≠ []) {fuel : Nat} {t : Terminal}
    {v : Tree (.term t)} {d : Tree (.non .program)}
    (hf : Featherweight.feed growing.node fuel a t v = .finished d) :
    ∃ u u', d = .ofStmts u ∧ Joins first u u' ∧
      Featherweight.feed growing.node fuel b t v = .finished (.ofStmts u') := by
  have hr : ∀ s, Featherweight.feed growing.node fuel a t v ≠ .refused s := by simp [hf]
  rcases h.feed hl (fun hnil => absurd hnil ha) hr with ⟨a₁, b₁, h₁, -, -⟩ | ⟨u, u', h₁, h₂, hj⟩
  · cases hf.symm.trans h₁
  · cases hf.symm.trans h₁
    exact ⟨u, u', rfl, hj, h₂⟩

end Over

/-! ## Reading behind the seam -/

theorem Stack.Linked.feed {stack stack' : Stack Tree} (hl : stack.Linked) {fuel : Nat}
    {t : Terminal} {text : String}
    (h : Featherweight.feed growing.node fuel stack t (.leaf t text) = .read stack') :
    stack'.Linked := by
  have hs := feed_growing fuel t text hl
  rw [h] at hs
  exact hs.1

theorem Scans.over {bound : Nat} {d : Tree (.non .program)} {first : Tree (.non .stmts)}
    {a b : Stack Tree} {text : List Char} {ls : List Lexeme} (h : Scans bound d a text ls)
    (ho : Over first a b) (hl : a.Linked) (ha : a ≠ []) :
    ∃ u u', d = .ofStmts u ∧ Joins first u u' ∧ Scans bound (.ofStmts u') b text ls := by
  induction h generalizing b with
  | done hf =>
    obtain ⟨u, u', hd, hj, hfb⟩ := ho.finished hl ha hf
    exact ⟨u, u', hd, hj, .done hfb⟩
  | blank hc _ ih =>
    obtain ⟨u, u', hd, hj, hs⟩ := ih ho hl ha
    exact ⟨u, u', hd, hj, .blank hc hs⟩
  | line hc hr _ ih =>
    obtain ⟨u, u', hd, hj, hs⟩ := ih ho hl ha
    exact ⟨u, u', hd, hj, .line hc hr hs⟩
  | block hc _ ih =>
    obtain ⟨u, u', hd, hj, hs⟩ := ih ho hl ha
    exact ⟨u, u', hd, hj, .block hc hs⟩
  | token hi hfind hf _ ih =>
    obtain ⟨b', hfb, ho'⟩ := ho.read hl ha hf
    obtain ⟨s, below, hstack, -⟩ := feed_read hf
    obtain ⟨u, u', hd, hj, hs⟩ := ih ho' (hl.feed hf) (by simp [hstack])
    refine ⟨u, u', hd, hj, .token hi ?_ hfb hs⟩
    simpa only [ho.admits ha] using hfind

/-- Before a token that starts a statement, a stack that could end the program is taken together to
its list of statements. -/
theorem feed_seam {fuel : Nat} {stack : Stack Tree} (hl : stack.Linked) {v : Tree (.term .eof)}
    {first : Tree (.non .stmts)}
    (h : feed growing.node fuel stack .eof v = .finished (.ofStmts first)) {t : Terminal}
    {s : State} (ht : State.start.move? (.term t) = some s) (w : Tree (.term t)) :
    feed growing.node fuel stack t w =
      .read [⟨s, .term t, w⟩, ⟨.stmts, .non .stmts, first⟩] := by
  induction fuel generalizing stack with
  | zero => cases h
  | succ fuel ih =>
    have hr : ∀ s, feed growing.node (fuel + 1) stack .eof v ≠ .refused s := by simp [h]
    rcases feed_cases hr with ⟨s', ha⟩ | ⟨p, values, below, ha, hp, hprog | ⟨hprog, s', hm⟩⟩
    · rw [feed_shift ha] at h
      cases h
    · obtain ⟨hdone, hfollow⟩ := State.done?_of_action? ha
      obtain ⟨rfl, ⟨rfl, rfl⟩ | ⟨rfl, u, rfl⟩⟩ := hl.accept_cases hdone hprog hp
      · rw [feed_accept ha hp hprog] at h
        cases h
      · rw [feed_programStmts u ha] at h
        cases h
        have hm : State.stmts.move? (.term t) = some s := (State.stmts_move?_term t).trans ht
        exact feed_shift (State.action?_of_move? hm)
    · obtain ⟨hdone, hfollow⟩ := State.done?_of_action? ha
      have hact : stack.state.action? t = some (.reduce p) := by
        refine State.action?_of_done? hdone (State.mem_follow_of_start ht hprog hfollow) ?_
        rintro - rfl
        cases ht
      rw [feed_reduce ha hp hprog hm] at h
      rw [feed_reduce hact hp hprog hm]
      exact ih ⟨hm, hl.pop? hp⟩ h

/-- At the start of a text every token is read in its preferred way, except the word `else`. -/
theorem Token.find?_start {text : List Char} {kind : Terminal} {n : Nat}
    (h : (readings text).find? (fun r => State.start.admits r.1) = some (kind, n))
    (helse : String.ofList (text.take n) ≠ "else") :
    ∃ more, readings text = (kind, n) :: more := by
  revert h
  fun_cases readings text with
  | case1 | case2 | case3 =>
    intro h
    cases h
  | case19 c rest =>
    rename_i hs word k hk
    intro h
    by_cases hadm : State.start.admits (.keyword k) = true
    · simp only [List.find?_cons, hadm] at h
      cases h
      exact ⟨_, rfl⟩
    · have hword : k = .elseWord := by
        cases k with
        | elseWord => rfl
        | _ => exact absurd rfl hadm
      subst hword
      cases h
      rw [take_length_takeWhile] at helse
      exact absurd (Keyword.text_of_ofText? hk) helse
  | case21 | case22 =>
    intro h
    cases h
  | _ =>
    intro h
    have hmem := List.mem_singleton.1 (List.mem_of_find?_eq_some h)
    exact ⟨[], by rw [hmem]⟩

theorem feed_start {fuel : Nat} {t : Terminal} {v : Tree (.term t)} {stack : Stack Tree}
    (h : feed growing.node fuel [] t v = .read stack) :
    ∃ s, State.start.move? (.term t) = some s ∧ stack = [⟨s, .term t, v⟩] := by
  cases fuel with
  | zero => cases h
  | succ fuel =>
    have hr : ∀ s, feed growing.node (fuel + 1) [] t v ≠ .refused s := by simp [h]
    rcases feed_cases hr with ⟨s, ha⟩ | ⟨p, values, below, ha, hp, hprog⟩
    · rw [feed_shift ha] at h
      cases h
      exact ⟨s, State.move?_of_action? ha, rfl⟩
    · cases (State.done?_of_action? ha).1
      rw [feed_accept ha hp rfl] at h
      cases h

/-- A second program is read on top of the statements of the first. -/
theorem Scans.behind {bound : Nat} {d : Tree (.non .program)} {text : List Char} {l : Lexeme}
    {ls : List Lexeme} (h : Scans bound d [] text (l :: ls)) (helse : l.text ≠ "else")
    {stack : Stack Tree} (hl : stack.Linked) {first : Tree (.non .stmts)}
    (hf : feed growing.node bound stack .eof (.leaf .eof "") = .finished (.ofStmts first)) :
    ∃ u u', d = .ofStmts u ∧ Joins first u u' ∧
      Scans bound (.ofStmts u') stack text (l :: ls) := by
  generalize hs : ([] : Stack Tree) = start at h
  generalize htokens : l :: ls = tokens at h
  induction h with
  | done => cases htokens
  | blank hc _ ih =>
    obtain ⟨u, u', hd, hj, hscans⟩ := ih hs htokens
    exact ⟨u, u', hd, hj, .blank hc hscans⟩
  | line hc hr _ ih =>
    obtain ⟨u, u', hd, hj, hscans⟩ := ih hs htokens
    exact ⟨u, u', hd, hj, .line hc hr hscans⟩
  | block hc _ ih =>
    obtain ⟨u, u', hd, hj, hscans⟩ := ih hs htokens
    exact ⟨u, u', hd, hj, .block hc hscans⟩
  | token hi hfind hfeed hrest _ =>
    subst hs
    cases htokens
    obtain ⟨more, hread⟩ := Token.find?_start hfind helse
    obtain ⟨s, hmove, rfl⟩ := feed_start hfeed
    have hseam := feed_seam hl hf hmove
    obtain ⟨u, u', hd, hj, hscans⟩ := hrest.over (.token _ _ _) ⟨hmove, trivial⟩ (by simp)
    refine ⟨u, u', hd, hj, .token hi ?_ (hseam _) hscans⟩
    rw [hread]
    exact List.find?_cons_of_pos (feed_admits (hseam (.leaf _ "")))

/-! ## Reading up to the seam -/

theorem State.eq_operator_of_move? {s s' : State} {o : Op} (h : s.move? (.term (.op o)) = some s')
    (ho : o ≠ .sub) : s' = .operator o := by
  have hall := forall_of_all (q := fun s => s.moves.all fun m =>
    match m.1 with
    | .term (.op o) => o = .sub || m.2 = .operator o
    | _ => true) (by decide) s
  simpa [ho] using List.all_eq_true.1 hall _ (mem_moves_of_move? h)

/-- A slash that was read as a sign is not followed by a star: an open comment is never accepted. -/
theorem not_scans_star {bound fuel : Nat} {d : Tree (.non .program)} {stack stack' : Stack Tree}
    {v : Tree (.term (.op .div))} (hf : feed growing.node fuel stack (.op .div) v = .read stack')
    (text : List Char) (ls : List Lexeme) : ¬ Scans bound d stack' ('*' :: text) ls := by
  obtain ⟨s, below, rfl, hm⟩ := feed_read hf
  obtain rfl := State.eq_operator_of_move? hm (by decide)
  intro h
  cases h with
  | blank hc => exact absurd hc (by decide)
  | token _ hfind => cases hfind

/-- Where a token is read no comment is open. -/
theorem not_open_of_token {bound n : Nat} {d : Tree (.non .program)} {stack stack' : Stack Tree}
    {text : List Char} {kind : Terminal} {ls : List Lexeme}
    (hfind : (Token.readings text).find? (fun r => stack.state.admits r.1) = some (kind, n))
    (hf : feed growing.node bound stack kind (.leaf kind (String.ofList (text.take n))) =
      .read stack')
    (h : Scans bound d stack' (text.drop n) ls) (tail : List Char) : text ≠ '/' :: '*' :: tail := by
  rintro rfl
  have hmem : (kind, n) = (.op .div, 1) := by
    simpa [Token.readings] using List.mem_of_find?_eq_some hfind
  cases hmem
  exact not_scans_star hf _ _ h

/-- What is read up to the end of a text is read so up to a line feed; then the machine could end the
program, and goes on with what comes next. -/
theorem Scans.append {bound : Nat} {d : Tree (.non .program)} {stack : Stack Tree}
    {text : List Char} {ls : List Lexeme} (h : Scans bound d stack text ls) (hl : stack.Linked)
    (rest : List Char) :
    ∃ stack' : Stack Tree, stack'.Linked ∧
      feed growing.node bound stack' .eof (.leaf .eof "") = .finished d ∧
      ∀ {e more}, Scans bound e stack' ('\n' :: rest) more →
        Scans bound e stack (text ++ '\n' :: rest) (ls ++ more) := by
  have hapart : Apart ('\n' :: rest) := by simp [Apart, Text.isSpace]
  induction h with
  | @done stack hf => exact ⟨stack, hl, hf, id⟩
  | blank hc _ ih =>
    obtain ⟨stack', hl', hf, hgo⟩ := ih hl
    exact ⟨stack', hl', hf, fun hs => .blank hc (hgo hs)⟩
  | @line _ comment r _ hc hr _ ih =>
    obtain ⟨stack', hl', hf, hgo⟩ := ih hl
    refine ⟨stack', hl', hf, fun hs => ?_⟩
    rw [List.cons_append, List.cons_append, List.append_assoc]
    refine .line hc (fun c hmem => ?_) (hgo hs)
    cases r with
    | nil => simpa [eq_comm] using hmem
    | cons => exact hr c hmem
  | block hc _ ih =>
    obtain ⟨stack', hl', hf, hgo⟩ := ih hl
    refine ⟨stack', hl', hf, fun hs => ?_⟩
    rw [List.cons_append, List.cons_append, List.append_assoc]
    exact .block hc (hgo hs)
  | @token stack _ text kind n ls hi hfind hfeed htail ih =>
    obtain ⟨stack', hl', hf, hgo⟩ := ih (hl.feed hfeed)
    obtain ⟨hpos, hle, -⟩ := Token.spelt_of_mem_readings (List.mem_of_find?_eq_some hfind)
    have hne : text ≠ [] := List.length_pos_iff.1 (by omega)
    -- The rest could close a comment that the text leaves open.
    have hopen := not_open_of_token hfind hfeed htail
    have htake : (text ++ '\n' :: rest).take n = text.take n := List.take_append_of_le_length hle
    have hdrop : (text ++ '\n' :: rest).drop n = text.drop n ++ '\n' :: rest :=
      List.drop_append_of_le_length hle
    refine ⟨stack', hl', hf, fun {e more} hs => ?_⟩
    have hscans : Scans bound e stack (text ++ '\n' :: rest)
        (⟨kind, String.ofList ((text ++ '\n' :: rest).take n)⟩ :: (ls ++ more)) := by
      rw [← Token.readings_append hne hapart] at hfind
      rw [← htake] at hfeed
      refine .token (Token.ignored_append hne hapart hi hopen) hfind hfeed ?_
      rw [hdrop]
      exact hgo hs
    rwa [htake] at hscans

/-- A stack that ends as the empty program is empty. -/
theorem Stack.Linked.eq_nil_of_feed {stack : Stack Tree} (hl : stack.Linked) {fuel : Nat}
    {v : Tree (.term .eof)}
    (h : Featherweight.feed growing.node fuel stack .eof v =
      .finished (.node .programEmpty .nil)) : stack = [] := by
  induction fuel generalizing stack with
  | zero => cases h
  | succ fuel ih =>
    have hr : ∀ s, Featherweight.feed growing.node (fuel + 1) stack .eof v ≠ .refused s := by
      simp [h]
    rcases feed_cases hr with ⟨s, ha⟩ | ⟨p, values, below, ha, hp, hprog | ⟨hprog, s, hm⟩⟩
    · rw [feed_shift ha] at h
      cases h
    · obtain ⟨rfl, ⟨rfl, rfl⟩ | ⟨rfl, u, rfl⟩⟩ :=
        hl.accept_cases (State.done?_of_action? ha).1 hprog hp
      · rfl
      · rw [feed_programStmts u ha] at h
        cases h
    · rw [feed_reduce ha hp hprog hm] at h
      have hlinked : Stack.Linked (⟨s, .non p.lhs, growing.node p values⟩ :: below) :=
        ⟨hm, hl.pop? hp⟩
      cases ih hlinked h

/-- Two programs with a line feed between them are read as the statements of both. -/
theorem Scans.join {bound : Nat} {d₁ d₂ : Tree (.non .program)} {a b : List Char}
    {ls ms : List Lexeme} {m : Lexeme} (h₁ : Scans bound d₁ [] a ls)
    (h₂ : Scans bound d₂ [] b (m :: ms)) (helse : m.text ≠ "else") :
    ∃ d, Scans bound d [] (a ++ '\n' :: b) (ls ++ m :: ms) ∧
      (d₁ = .node .programEmpty .nil ∧ d = d₂ ∨
        ∃ u₁ u₂ u, d₁ = .ofStmts u₁ ∧ d₂ = .ofStmts u₂ ∧ d = .ofStmts u ∧ Joins u₁ u₂ u) := by
  obtain ⟨stack, hl, hf, hgo⟩ := h₁.append trivial b
  have hfeed : Token.isBlank '\n' = true := rfl
  rcases d₁.program_cases with rfl | ⟨u₁, rfl⟩
  · obtain rfl := hl.eq_nil_of_feed hf
    exact ⟨d₂, hgo (.blank hfeed h₂), .inl ⟨rfl, rfl⟩⟩
  · obtain ⟨u₂, u, hd, hj, hscans⟩ := h₂.behind helse hl hf
    exact ⟨.ofStmts u, hgo (.blank hfeed hscans), .inr ⟨u₁, u₂, u, rfl, hd, rfl, hj⟩⟩

end Featherweight
