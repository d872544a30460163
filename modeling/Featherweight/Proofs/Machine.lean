import Featherweight.Grammar.Machine
import Featherweight.Proofs.Table

/-!
# Featherweight.Proofs.Machine

How the machine answers a terminal.

* `feed_shift`, `feed_reduce` and `feed_accept` are its three moves, and `feed_cases` says that a
  terminal which is not refused is answered by one of them.
* `feed_mono` : more fuel changes no answer but a refusal.
* `Stack.Linked` : each entry has the state that its symbol leads to from the entry below.
* `feed_carries` : the machine loses nothing of what it has read.
-/

namespace Featherweight

variable {V : Symbol → Type}

namespace State

theorem done?_of_action? {s : State} {t : Terminal} {p : Production}
    (h : s.action? t = some (.reduce p)) : s.done? = some p ∧ t ∈ p.lhs.follow := by
  unfold action? at h
  split at h
  · cases h
  · split at h
    · rename_i q hq
      split at h
      · rename_i ht
        cases h
        exact ⟨hq, ht⟩
      · cases h
    · cases h

theorem move?_of_action? {s s' : State} {t : Terminal}
    (h : s.action? t = some (.shift s')) : s.move? (.term t) = some s' := by
  unfold action? at h
  split at h
  · rename_i hm
    cases h
    exact hm
  · split at h
    · split at h <;> cases h
    · cases h

end State

/-! ## The moves of the machine -/

section Feed

variable {build : Build V} {fuel : Nat} {stack below : Stack V} {t : Terminal} {v : V (.term t)}
  {p : Production} {values : Values V p.rhs}

theorem feed_shift {s : State} (ha : stack.state.action? t = some (.shift s)) :
    feed build (fuel + 1) stack t v = .read (⟨s, .term t, v⟩ :: stack) := by
  simp only [feed, ha]

theorem feed_reduce {s : State} (ha : stack.state.action? t = some (.reduce p))
    (hp : stack.pop? p.rhs = some (values, below)) (hprog : p.lhs ≠ .program)
    (hm : below.state.move? (.non p.lhs) = some s) :
    feed build (fuel + 1) stack t v =
      feed build fuel (⟨s, .non p.lhs, build p values⟩ :: below) t v := by
  simp only [feed, ha, hp, hprog, dite_false, hm]

theorem feed_accept (ha : stack.state.action? t = some (.reduce p))
    (hp : stack.pop? p.rhs = some (values, below)) (hprog : p.lhs = .program) :
    feed build (fuel + 1) stack t v = .finished (hprog ▸ build p values) := by
  simp only [feed, ha, hp, hprog, dite_true]

/-- A terminal that is not refused is read, completes a production or ends the program. -/
theorem feed_cases (h : ∀ s, feed build (fuel + 1) stack t v ≠ .refused s) :
    (∃ s, stack.state.action? t = some (.shift s)) ∨
    (∃ p values below, stack.state.action? t = some (.reduce p) ∧
      stack.pop? p.rhs = some (values, below) ∧
      (p.lhs = .program ∨
        p.lhs ≠ .program ∧ ∃ s, (Stack.state below).move? (.non p.lhs) = some s)) := by
  rw [feed] at h
  cases ha : stack.state.action? t with
  | none =>
    rw [ha] at h
    exact absurd rfl (h stack)
  | some action =>
    cases action with
    | shift s => exact .inl ⟨s, rfl⟩
    | reduce p =>
      refine .inr ?_
      rw [ha] at h
      dsimp only at h
      cases hp : stack.pop? p.rhs with
      | none =>
        rw [hp] at h
        exact absurd rfl (h stack)
      | some popped =>
        obtain ⟨values, below⟩ := popped
        refine ⟨p, values, below, rfl, hp, ?_⟩
        rw [hp] at h
        dsimp only at h
        by_cases hprog : p.lhs = .program
        · exact .inl hprog
        · refine .inr ⟨hprog, ?_⟩
          rw [dif_neg hprog] at h
          cases hm : (Stack.state below).move? (.non p.lhs) with
          | none =>
            rw [hm] at h
            exact absurd rfl (h stack)
          | some s => exact ⟨s, rfl⟩

theorem feed_mono {fuel' : Nat} (hf : fuel ≤ fuel')
    (h : ∀ s, feed build fuel stack t v ≠ .refused s) :
    feed build fuel' stack t v = feed build fuel stack t v := by
  induction fuel generalizing fuel' stack with
  | zero => exact absurd rfl (h stack)
  | succ fuel ih =>
    obtain ⟨k, rfl⟩ : ∃ k, fuel' = k + 1 := ⟨fuel' - 1, by omega⟩
    rcases feed_cases h with ⟨s, ha⟩ | ⟨p, values, below, ha, hp, hprog | ⟨hprog, s, hm⟩⟩
    · rw [feed_shift ha, feed_shift ha]
    · rw [feed_accept ha hp hprog, feed_accept ha hp hprog]
    · rw [feed_reduce ha hp hprog hm] at h ⊢
      rw [feed_reduce ha hp hprog hm]
      exact ih (by omega) h

/-- A terminal that is read lies on top of the stack. -/
theorem feed_read {stack' : Stack V} (h : feed build fuel stack t v = .read stack') :
    ∃ s below, stack' = ⟨s, .term t, v⟩ :: below ∧ (Stack.state below).move? (.term t) = some s := by
  induction fuel generalizing stack with
  | zero => cases h
  | succ fuel ih =>
    have hr : ∀ s, feed build (fuel + 1) stack t v ≠ .refused s := by simp [h]
    rcases feed_cases hr with ⟨s, ha⟩ | ⟨p, values, below, ha, hp, hprog | ⟨hprog, s, hm⟩⟩
    · rw [feed_shift ha] at h
      cases h
      exact ⟨s, stack, rfl, State.move?_of_action? ha⟩
    · rw [feed_accept ha hp hprog] at h
      cases h
    · rw [feed_reduce ha hp hprog hm] at h
      exact ih h

theorem feed_admits {stack' : Stack V} (h : feed build fuel stack t v = .read stack') :
    stack.state.admits t = true := by
  cases fuel with
  | zero => cases h
  | succ fuel =>
    have hr : ∀ s, feed build (fuel + 1) stack t v ≠ .refused s := by simp [h]
    rcases feed_cases hr with ⟨s, ha⟩ | ⟨p, values, below, ha, -⟩ <;> simp [State.admits, ha]

end Feed

/-! ## Linked stacks -/

namespace Stack

theorem pop?_cons {X : Symbol} {word : List Symbol} {stack below : Stack V}
    {values : Values V (X :: word)} (h : stack.pop? (X :: word) = some (values, below)) :
    ∃ s, stack.pop? word = some (values.2, ⟨s, X, values.1⟩ :: below) := by
  rw [pop?] at h
  split at h
  · rename_i vs e rest hp
    obtain ⟨s, Y, y⟩ := e
    split at h
    · rename_i hX
      obtain rfl : Y = X := hX
      cases h
      exact ⟨s, hp⟩
    · cases h
  · cases h

theorem pop?_cons_of_pop? {X : Symbol} {word : List Symbol} {stack below : Stack V} {s : State}
    {x : V X} {values : Values V word} (h : stack.pop? word = some (values, ⟨s, X, x⟩ :: below)) :
    stack.pop? (X :: word) = some ((x, values), below) := by
  rw [pop?, h]
  exact dif_pos rfl

def Linked : Stack V → Prop
  | [] => True
  | e :: below => (state below).move? e.symbol = some e.state ∧ Linked below

theorem Linked.eq_nil_of_start {stack : Stack V} (h : stack.Linked) (hs : stack.state = .start) :
    stack = [] := by
  cases stack with
  | nil => rfl
  | cons e below =>
    have he : e.state = .start := hs
    exact absurd (he ▸ h.1) (State.move?_ne_start _ _)

theorem Linked.pop? {word : List Symbol} {stack below : Stack V} {values : Values V word}
    (hl : stack.Linked) (h : stack.pop? word = some (values, below)) : below.Linked := by
  induction word generalizing below with
  | nil =>
    cases h
    exact hl
  | cons X word ih =>
    obtain ⟨s, hp⟩ := pop?_cons h
    exact (ih hp).2

/-- A whole program is taken together from an empty stack or from its statements alone. -/
theorem Linked.accept_cases {stack below : Stack V} {p : Production} {values : Values V p.rhs}
    (hl : stack.Linked) (hdone : stack.state.done? = some p) (hp : p.lhs = .program)
    (h : stack.pop? p.rhs = some (values, below)) :
    below = [] ∧ ((stack = [] ∧ p = .programEmpty) ∨
      p = .programStmts ∧ ∃ u : V (.non .stmts), stack = [⟨.stmts, .non .stmts, u⟩]) := by
  have hall := State.forall_of_all
    (q := fun s => s.done?.all fun p => p.lhs ≠ .program || (s = .start && p = .programEmpty) ||
      (s = .stmts && p = .programStmts)) (by decide) stack.state
  rw [hdone] at hall
  have hcase : (stack.state = .start ∧ p = .programEmpty) ∨
      (stack.state = .stmts ∧ p = .programStmts) := by simpa [hp] using hall
  rcases hcase with ⟨hs, rfl⟩ | ⟨hs, rfl⟩
  · obtain rfl := hl.eq_nil_of_start hs
    cases h
    exact ⟨rfl, .inl ⟨rfl, rfl⟩⟩
  · obtain ⟨s, hstack⟩ := pop?_cons h
    cases hstack
    obtain rfl : s = .stmts := hs
    have hnil : below = [] := hl.2.eq_nil_of_start (State.eq_start_of_move? hl.1)
    exact ⟨hnil, .inr ⟨rfl, values.1, by rw [hnil]⟩⟩

end Stack

/-! ## What lies on a stack -/

section Content

variable {α : Type} (content : (X : Symbol) → V X → List α)

def Values.contents : (word : List Symbol) → Values V word → List α
  | [], _ => []
  | X :: word, (v, vs) => content X v ++ contents word vs

def Stack.contents : Stack V → List α
  | [] => []
  | e :: below => contents below ++ content e.symbol e.value

/-- What one terminal with contents `l` does to a stack. -/
def Reply.Carries (stack : Stack V) (l : List α) : Reply V → Prop
  | .read stack' => stack'.Linked ∧ stack'.contents content = stack.contents content ++ l
  | .finished value => content _ value = stack.contents content
  | .refused _ => True

variable {content}

/-- The parts that come off a stack hold what is gone. -/
theorem Stack.contents_of_pop? {word : List Symbol} {stack below : Stack V} {values : Values V word}
    (h : stack.pop? word = some (values, below)) :
    stack.contents content = below.contents content ++ values.contents content word := by
  induction word generalizing below with
  | nil =>
    cases h
    exact (List.append_nil _).symm
  | cons X word ih =>
    obtain ⟨s, hp⟩ := pop?_cons h
    rw [ih hp, contents, List.append_assoc]
    rfl

theorem Values.content_cast (content : (X : Symbol) → V X → List α) {A : Nonterminal}
    (h : A = .program) (v : V (.non A)) :
    content _ (h ▸ v : V (.non .program)) = content _ v := by
  subst h
  rfl

/-- If a production holds what its parts hold, the machine loses nothing and adds the terminal. -/
theorem feed_carries (content : (X : Symbol) → V X → List α) {build : Build V}
    (hbuild : ∀ p values, content _ (build p values) = Values.contents content p.rhs values)
    (fuel : Nat) {stack : Stack V} {t : Terminal} (v : V (.term t)) (hl : stack.Linked) :
    (feed build fuel stack t v).Carries content stack (content _ v) := by
  induction fuel generalizing stack with
  | zero => trivial
  | succ fuel ih =>
    by_cases hr : ∀ s, feed build (fuel + 1) stack t v ≠ .refused s
    · rcases feed_cases hr with ⟨s, ha⟩ | ⟨p, values, below, ha, hp, hprog | ⟨hprog, s, hm⟩⟩
      · rw [feed_shift ha]
        exact ⟨⟨State.move?_of_action? ha, hl⟩, rfl⟩
      · obtain ⟨hbelow, -⟩ := hl.accept_cases (State.done?_of_action? ha).1 hprog hp
        rw [feed_accept ha hp hprog, Reply.Carries, Values.content_cast content hprog, hbuild,
          Stack.contents_of_pop? hp, hbelow]
        rfl
      · -- The node takes the place of its parts, so the stack holds the same.
        have hsame : Stack.contents content (⟨s, .non p.lhs, build p values⟩ :: below) =
            stack.contents content := by
          rw [Stack.contents, hbuild, Stack.contents_of_pop? hp]
        have hlinked : Stack.Linked (⟨s, .non p.lhs, build p values⟩ :: below) := ⟨hm, hl.pop? hp⟩
        have h := ih hlinked
        rw [feed_reduce ha hp hprog hm]
        revert h
        cases feed build fuel (⟨s, .non p.lhs, build p values⟩ :: below) t v <;>
          simp only [Reply.Carries, hsame, imp_self]
    · obtain ⟨s, hs⟩ := Classical.not_forall.1 hr
      rw [Classical.not_not.1 hs]
      trivial

end Content

end Featherweight
