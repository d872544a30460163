import Mathlib.Data.List.Forall2
import Featherweight.Proofs.Computation
import Featherweight.Proofs.Discipline

/-!
# Featherweight.Proofs.Lockstep

Two evaluations side by side, of code that is related and in worlds that are the same but for such
code.

* `Value.Parallel E`, `Store.Parallel E`, `World.Parallel E` : the same but for the bodies of
  closures, which are related by `E`. `Expr.Parallel E` : nodes of the same kind at the same
  position, whose parts are related by `E`.
* `Eval.Follows` : wherever one computation stays within its limits, the other does so too once its
  own are large enough, and the two have parallel results.
* `follows_step` : parallel nodes follow each other if their parts do.
-/

namespace Featherweight

/-! ## Parallel worlds -/

section Parallel

variable (E : Expr → Expr → Prop)

inductive Value.Parallel : Value → Value → Prop where
  | null : Parallel .null .null
  | bool (b : Bool) : Parallel (.bool b) (.bool b)
  | int (n : Int) : Parallel (.int n) (.int n)
  | closure {a b : Expr} (params : List String) (f : FrameId) (i : Nat) :
      E a b → Parallel (.closure params a f i) (.closure params b f i)
  | host (h : Host) : Parallel (.host h) (.host h)

/-- Two values under one label, which is a name or a sink. -/
def Entry.Parallel {α : Type} (p q : α × Value) : Prop := p.1 = q.1 ∧ p.2.Parallel E q.2

structure Frame.Parallel (a b : Frame) : Prop where
  parent : b.parent = a.parent
  vars : List.Forall₂ (Entry.Parallel E) a.vars b.vars
  sink : b.sink = a.sink
  source : b.source = a.source
  born : b.born = a.born

def Store.Parallel (s t : Store) : Prop := ∀ f : FrameId, Option.Rel (Frame.Parallel E) s[f]? t[f]?

/-- What was printed is not looked at again, so it may also be the same as it is. -/
structure World.Parallel (w t : World) : Prop where
  store : w.store.Parallel E t.store
  log : List.Forall₂ (fun p q => p = q ∨ Entry.Parallel E p q) w.log t.log

inductive Expr.Parallel : Expr → Expr → Prop where
  | literal {v u : Value} (pos : Option Pos) : v.Parallel E u →
      Parallel (.literal v pos) (.literal u pos)
  | var (x : String) (pos : Option Pos) : Parallel (.var x pos) (.var x pos)
  | print {a a' : Expr} (pos : Option Pos) : E a a' → Parallel (.print a pos) (.print a' pos)
  | binary {a a' b b' : Expr} (op : Op) (pos : Option Pos) : E a a' → E b b' →
      Parallel (.binary op a b pos) (.binary op a' b' pos)
  | branch {a a' b b' c c' : Expr} (pos : Option Pos) : E a a' → E b b' → E c c' →
      Parallel (.branch a b c pos) (.branch a' b' c' pos)
  | loop {a a' b b' : Expr} (pos : Option Pos) : E a a' → E b b' →
      Parallel (.loop a b pos) (.loop a' b' pos)
  | seq {a a' b b' : Expr} (pos : Option Pos) : E a a' → E b b' →
      Parallel (.seq a b pos) (.seq a' b' pos)
  | declare {a a' : Expr} (x : String) (pos : Option Pos) : E a a' →
      Parallel (.declare x a pos) (.declare x a' pos)
  | assign {a a' : Expr} (x : String) (pos : Option Pos) : E a a' →
      Parallel (.assign x a pos) (.assign x a' pos)
  | function {a a' : Expr} (params : List String) (pos : Option Pos) : E a a' →
      Parallel (.function params a pos) (.function params a' pos)
  | call {a a' : Expr} {args args' : List Expr} (pos : Option Pos) : E a a' →
      List.Forall₂ E args args' → Parallel (.call a args pos) (.call a' args' pos)
  | blank : Parallel .blank .blank
  | host (h : Host) : Parallel (.host h) (.host h)

end Parallel

variable {E : Expr → Expr → Prop}

namespace Value

theorem Parallel.refl (hE : ∀ e, E e e) (v : Value) : v.Parallel E v := by
  cases v with
  | null => exact .null
  | bool b => exact .bool b
  | int n => exact .int n
  | closure params body f i => exact .closure params f i (hE body)
  | host h => exact .host h

/-- Closures with parallel bodies are written alike. -/
theorem Parallel.display {v u : Value} (h : v.Parallel E u) : u.display = v.display := by
  cases h <;> rfl

end Value

theorem Expr.Parallel.pos? {e e' : Expr} (h : e.Parallel E e') : e'.pos? = e.pos? := by
  cases h <;> rfl

theorem Expr.Parallel.refl (hE : ∀ e, E e e) (e : Expr) : e.Parallel E e := by
  cases e with
  | literal v pos => exact .literal pos (.refl hE v)
  | var x pos => exact .var x pos
  | print a pos => exact .print pos (hE a)
  | binary op a b pos => exact .binary op pos (hE a) (hE b)
  | branch a b c pos => exact .branch pos (hE a) (hE b) (hE c)
  | loop a b pos => exact .loop pos (hE a) (hE b)
  | seq a b pos => exact .seq pos (hE a) (hE b)
  | declare x a pos => exact .declare x pos (hE a)
  | assign x a pos => exact .assign x pos (hE a)
  | function params a pos => exact .function params pos (hE a)
  | call a args pos => exact .call pos (hE a) (List.forall₂_same.2 fun b _ => hE b)
  | blank => exact .blank
  | host h => exact .host h

theorem Value.Parallel.symm (hE : ∀ a b, E a b → E b a) {v u : Value} (h : v.Parallel E u) :
    u.Parallel E v := by
  cases h with
  | null => exact .null
  | bool b => exact .bool b
  | int n => exact .int n
  | closure params f i hbody => exact .closure params f i (hE _ _ hbody)
  | host h => exact .host h

theorem Expr.Parallel.symm (hE : ∀ a b, E a b → E b a) {e e' : Expr} (h : e.Parallel E e') :
    e'.Parallel E e := by
  cases h with
  | literal pos hv => exact .literal pos (hv.symm hE)
  | var x pos => exact .var x pos
  | print pos ha => exact .print pos (hE _ _ ha)
  | binary op pos ha hb => exact .binary op pos (hE _ _ ha) (hE _ _ hb)
  | branch pos ha hb hc => exact .branch pos (hE _ _ ha) (hE _ _ hb) (hE _ _ hc)
  | loop pos ha hb => exact .loop pos (hE _ _ ha) (hE _ _ hb)
  | seq pos ha hb => exact .seq pos (hE _ _ ha) (hE _ _ hb)
  | declare x pos ha => exact .declare x pos (hE _ _ ha)
  | assign x pos ha => exact .assign x pos (hE _ _ ha)
  | function params pos ha => exact .function params pos (hE _ _ ha)
  | call pos ha hargs => exact .call pos (hE _ _ ha) (hargs.flip.imp fun _ _ hab => hE _ _ hab)
  | blank => exact .blank
  | host h => exact .host h

section All

variable {U : Expr → Expr → Prop} {p : Expr → Prop} {q : Value → Prop}
  (hE : ∀ a b, U a b → a.All p q → E a b)
include hE

theorem Value.Parallel.imp_all {v u : Value} (h : v.Parallel U u) (hv : v.All p q) :
    v.Parallel E u := by
  cases h with
  | null => exact .null
  | bool b => exact .bool b
  | int n => exact .int n
  | closure params f i hbody => exact .closure params f i (hE _ _ hbody hv.2)
  | host h => exact .host h

/-- What holds of all nodes of a tree holds of those of its parts. -/
theorem Expr.Parallel.imp_all {e e' : Expr} (h : e.Parallel U e') (he : e.All p q) :
    e.Parallel E e' := by
  cases h with
  | literal pos hv => exact .literal pos (hv.imp_all hE he.2)
  | var x pos => exact .var x pos
  | print pos ha => exact .print pos (hE _ _ ha he.2)
  | binary op pos ha hb => exact .binary op pos (hE _ _ ha he.2.1) (hE _ _ hb he.2.2)
  | branch pos ha hb hc =>
    exact .branch pos (hE _ _ ha he.2.1) (hE _ _ hb he.2.2.1) (hE _ _ hc he.2.2.2)
  | loop pos ha hb => exact .loop pos (hE _ _ ha he.2.1) (hE _ _ hb he.2.2)
  | seq pos ha hb => exact .seq pos (hE _ _ ha he.2.1) (hE _ _ hb he.2.2)
  | declare x pos ha => exact .declare x pos (hE _ _ ha he.2)
  | assign x pos ha => exact .assign x pos (hE _ _ ha he.2)
  | function params pos ha => exact .function params pos (hE _ _ ha he.2)
  | @call a a' args args' pos ha hargs =>
    refine .call pos (hE _ _ ha he.2.1) ?_
    have hall := he.2.2
    clear ha he
    induction hargs with
    | nil => exact .nil
    | cons hb _ ih => exact .cons (hE _ _ hb hall.1) (ih hall.2)
  | blank => exact .blank
  | host h => exact .host h

end All

/-- The leaves of related trees are related, if related nodes are parallel or no sequences. -/
theorem leaves_parallel
    (hE : ∀ a b, E a b → a.Parallel E b ∨ (a.leaves = [a] ∧ b.leaves = [b])) {e e' : Expr}
    (h : E e e') : List.Forall₂ E e.leaves e'.leaves := by
  rcases hE e e' h with hpar | ⟨hleaf, hleaf'⟩
  · cases hpar with
    | seq pos ha hb =>
      rw [Expr.leaves_seq, Expr.leaves_seq]
      exact List.rel_append (leaves_parallel hE ha) (leaves_parallel hE hb)
    | _ => exact .cons h .nil
  · rw [hleaf, hleaf']
    exact .cons h .nil
termination_by e

/-! ## The store -/

section Vars

variable {xs ys : List (String × Value)}

theorem lookup_parallel (h : List.Forall₂ (Entry.Parallel E) xs ys) (x : String) :
    Option.Rel (Value.Parallel E) (xs.lookup x) (ys.lookup x) := by
  induction h with
  | nil => exact .none
  | @cons p q xs ys hpq _ ih =>
    rw [List.lookup_cons, List.lookup_cons, hpq.1]
    cases x == q.1 with
    | true => exact .some hpq.2
    | false => exact ih

theorem bindIn_parallel (h : List.Forall₂ (Entry.Parallel E) xs ys) (x : String) {v u : Value}
    (hv : v.Parallel E u) : List.Forall₂ (Entry.Parallel E) (bindIn x v xs) (bindIn x u ys) := by
  induction h with
  | nil => exact .cons ⟨rfl, hv⟩ .nil
  | @cons p q xs ys hpq htail ih =>
    obtain ⟨y, v'⟩ := p
    obtain ⟨z, u'⟩ := q
    obtain ⟨rfl, hval⟩ : y = z ∧ v'.Parallel E u' := hpq
    rw [bindIn, bindIn]
    split
    · exact .cons ⟨rfl, hv⟩ htail
    · exact .cons ⟨rfl, hval⟩ ih

end Vars

theorem rel_cases {α β : Type} {R : α → β → Prop} {a : Option α} {b : Option β}
    (h : Option.Rel R a b) : (a = none ∧ b = none) ∨ ∃ x y, a = some x ∧ b = some y ∧ R x y := by
  cases h with
  | none => exact .inl ⟨rfl, rfl⟩
  | some hr => exact .inr ⟨_, _, rfl, rfl, hr⟩

namespace Store

variable {s t : Store} (h : s.Parallel E t)
include h

theorem Parallel.getElem?_eq_none (f : FrameId) : s[f]? = none ↔ t[f]? = none := by
  rcases rel_cases (h f) with ⟨hs, ht⟩ | ⟨a, b, hs, ht, -⟩ <;> simp [hs, ht]

theorem Parallel.size : t.size = s.size := by
  have hle (f : FrameId) : s.size ≤ f ↔ t.size ≤ f := by
    rw [← Array.getElem?_eq_none_iff, ← Array.getElem?_eq_none_iff, h.getElem?_eq_none]
  exact Nat.le_antisymm ((hle _).1 (Nat.le_refl _)) ((hle _).2 (Nat.le_refl _))

theorem Parallel.get? (f : FrameId) (x : String) :
    Option.Rel (Value.Parallel E) (s.get? f x) (t.get? f x) := by
  rw [Store.get?, Store.get?]
  rcases rel_cases (h f) with ⟨hs, ht⟩ | ⟨a, b, hs, ht, hframe⟩
  · rw [hs, ht]
    exact .none
  · rw [hs, ht]
    exact lookup_parallel hframe.vars x

theorem Parallel.binds (f : FrameId) (x : String) : t.binds f x = s.binds f x := by
  rw [Store.binds, Store.binds]
  rcases rel_cases (h.get? f x) with ⟨hs, ht⟩ | ⟨v, u, hs, ht, -⟩ <;> simp [hs, ht]

theorem Parallel.chain (f : FrameId) : t.chain f = s.chain f := by
  have hfrom (n : Nat) (f : FrameId) : t.chainFrom n f = s.chainFrom n f := by
    induction n generalizing f with
    | zero => rfl
    | succ n ih =>
      rw [chainFrom, chainFrom]
      rcases rel_cases (h f) with ⟨hs, ht⟩ | ⟨a, b, hs, ht, hframe⟩
      · rw [hs, ht]
      · rw [hs, ht]
        dsimp only
        rw [hframe.parent]
        cases a.parent with
        | none => rfl
        | some p => simp only [ih p]
  exact hfrom (f + 1) f

theorem Parallel.resolve (f : FrameId) (x : String) :
    (s.resolve f x).Parallel E (t.resolve f x) := by
  rw [Store.resolve, Store.resolve, h.chain]
  induction s.chain f with
  | nil => exact .null
  | cons g chain ih =>
    rw [List.findSome?_cons, List.findSome?_cons]
    rcases rel_cases (h.get? g x) with ⟨hs, ht⟩ | ⟨v, u, hs, ht, hv⟩
    · rw [hs, ht]
      exact ih
    · rw [hs, ht]
      exact hv

theorem Parallel.sink? (f : FrameId) : t.sink? f = s.sink? f := by
  have hsink (g : FrameId) : (t[g]?).bind (·.sink) = (s[g]?).bind (·.sink) := by
    rcases rel_cases (h g) with ⟨hs, ht⟩ | ⟨a, b, hs, ht, hframe⟩
    · rw [hs, ht]
    · rw [hs, ht]
      exact hframe.sink
  simp only [Store.sink?, h.chain, hsink]

theorem Parallel.modify (f : FrameId) {k l : Frame → Frame}
    (hkl : ∀ a b, Frame.Parallel E a b → Frame.Parallel E (k a) (l b)) :
    Store.Parallel E (s.modify f k) (t.modify f l) := by
  intro g
  rw [Array.getElem?_modify, Array.getElem?_modify]
  split
  · rcases rel_cases (h g) with ⟨hs, ht⟩ | ⟨a, b, hs, ht, hframe⟩
    · rw [hs, ht]
      exact .none
    · rw [hs, ht]
      exact .some (hkl a b hframe)
  · exact h g

theorem Parallel.set (f : FrameId) (x : String) {v u : Value} (hv : v.Parallel E u) :
    (s.set f x v).Parallel E (t.set f x u) :=
  h.modify f fun _ _ hframe => { hframe with vars := bindIn_parallel hframe.vars x hv }

theorem Parallel.update (f : FrameId) (x : String) {v u : Value} (hv : v.Parallel E u) :
    (s.update f x v).Parallel E (t.update f x u) := by
  have howner : t.owner? f x = s.owner? f x := by simp only [owner?, h.chain, h.binds]
  have hroot : t.root f = s.root f := by rw [root, root, h.chain]
  rw [Store.update, Store.update, howner, hroot]
  exact h.set _ x hv

theorem Parallel.push {a b : Frame} (hframe : a.Parallel E b) :
    Store.Parallel E (s.push a) (t.push b) := by
  intro g
  rw [Array.getElem?_push, Array.getElem?_push, h.size]
  split
  · exact .some hframe
  · exact h g

/-- The serial number of the next closure. -/
theorem Parallel.born (f : FrameId) :
    ((t[f]?).map (·.born)).getD 0 = ((s[f]?).map (·.born)).getD 0 := by
  rcases rel_cases (h f) with ⟨hs, ht⟩ | ⟨a, b, hs, ht, hframe⟩
  · rw [hs, ht]
  · rw [hs, ht]
    exact hframe.born

end Store

/-- A world is parallel to itself if the values in its frames are. -/
theorem World.parallel_self {w : World} (h : ∀ (f : FrameId) (a : Frame) (x : String) (v : Value),
    w.store[f]? = some a → (x, v) ∈ a.vars → v.Parallel E v) : w.Parallel E w := by
  refine ⟨fun f => ?_, List.forall₂_same.2 fun _ _ => .inl rfl⟩
  cases ha : w.store[f]? with
  | none => exact .none
  | some a =>
    refine .some ⟨rfl, List.forall₂_same.2 fun p hp => ⟨rfl, ?_⟩, rfl, rfl, rfl⟩
    exact h f a p.1 p.2 ha hp

/-- The printed texts are the same and went to the same sinks. -/
theorem World.Parallel.displayed {w t : World} (h : w.Parallel E t) :
    w.log.map (fun p => (p.1, p.2.display)) = t.log.map fun p => (p.1, p.2.display) := by
  have hlog := h.log
  generalize w.log = xs at hlog
  generalize t.log = ys at hlog
  induction hlog with
  | nil => rfl
  | @cons p q _ _ hpq _ ih =>
    rw [List.map_cons, List.map_cons, ih]
    rcases hpq with rfl | ⟨hsink, hv⟩
    · rfl
    · rw [hsink, hv.display]

section Eq

variable (hE : ∀ a b, E a b → a = b)
include hE

theorem Value.Parallel.eq {v u : Value} (h : v.Parallel E u) : v = u := by
  cases h with
  | closure params f i hbody => rw [hE _ _ hbody]
  | _ => rfl

theorem Entry.Parallel.eq {α : Type} {p q : α × Value} (h : Entry.Parallel E p q) : p = q :=
  Prod.ext h.1 (h.2.eq hE)

theorem Frame.Parallel.eq {a b : Frame} (h : a.Parallel E b) : a = b := by
  have hvars : a.vars = b.vars := List.forall₂_eq_eq_eq ▸ h.vars.imp fun _ _ hpq => hpq.eq hE
  cases a
  cases b
  rw [Frame.mk.injEq]
  exact ⟨h.parent.symm, hvars, h.sink.symm, h.source.symm, h.born.symm⟩

/-- Worlds that are parallel for the same code are the same. -/
theorem World.Parallel.eq {w t : World} (h : w.Parallel E t) : w = t := by
  have hstore : w.store = t.store := by
    apply Array.ext_getElem?
    intro f
    rcases rel_cases (h.store f) with ⟨hs, ht⟩ | ⟨a, b, hs, ht, hframe⟩
    · rw [hs, ht]
    · rw [hs, ht, hframe.eq hE]
  have hlog : w.log = t.log :=
    List.forall₂_eq_eq_eq ▸ h.log.imp fun _ _ hpq => hpq.elim id fun hpar => hpar.eq hE
  cases w
  cases t
  rw [World.mk.injEq]
  exact ⟨hstore, hlog⟩

end Eq

/-! ## Computations that follow each other -/

/-- A fault without a place gets one. -/
def Fault.placed (p : Option Pos) : Fault → Fault
  | .error c q => .error c (q <|> p)
  | .limit => .limit

namespace Eval

variable {α β γ δ : Type} {V : α → β → Prop} {U : γ → δ → Prop}
  {ρ σ : Option Pos → Option Pos → Prop}

/-- Both results are values, related by `V`, or errors with the same cause, whose places are related
by `ρ`. -/
inductive Answers (ρ : Option Pos → Option Pos → Prop) (V : α → β → Prop) :
    Except Fault α → Except Fault β → Prop where
  | ok {a : α} {b : β} : V a b → Answers ρ V (.ok a) (.ok b)
  | error {c : Cause} {p q : Option Pos} : ρ p q →
      Answers ρ V (.error (.error c p)) (.error (.error c q))

/-- Wherever `m` stays within its limits, so does `n` from a parallel world, if its own are large
enough. It then has the result `r`, which answers that of `m`. -/
def Follows (E : Expr → Expr → Prop) (ρ : Option Pos → Option Pos → Prop) (V : α → β → Prop)
    (m : Eval α) (n : Nat → Eval β) : Prop :=
  ∀ w t, w.Parallel E t → (m w).1 ≠ .error .limit →
    ∃ k r, (∀ j, k ≤ j → n j t = r) ∧ Answers ρ V (m w).1 r.1 ∧ (m w).2.Parallel E r.2

theorem follows_limit (n : Nat → Eval β) : Follows E ρ V (fail .limit) n :=
  fun _ _ _ hne => absurd rfl hne

theorem follows_pure {a : α} {b : β} (h : V a b) : Follows E ρ V (pure a) fun _ => pure b :=
  fun _ _ hw _ => ⟨0, _, fun _ _ => rfl, .ok h, hw⟩

theorem follows_fail (c : Cause) {p q : Option Pos} (h : ρ p q) :
    Follows E ρ V (fail (.error c p)) fun _ => fail (.error c q) :=
  fun _ _ hw _ => ⟨0, _, fun _ _ => rfl, .error h, hw⟩

/-- The limits of `n` may be counted from any number on. -/
theorem Follows.of_add (c : Nat) {m : Eval α} {n : Nat → Eval β}
    (h : Follows E ρ V m fun k => n (k + c)) : Follows E ρ V m n := by
  intro w t hw hne
  obtain ⟨k, r, hk, hr⟩ := h w t hw hne
  refine ⟨k + c, r, fun j hj => ?_, hr⟩
  obtain ⟨i, rfl⟩ : ∃ i, j = i + c := ⟨j - c, by omega⟩
  exact hk i (by omega)

theorem Follows.add (c : Nat) {m : Eval α} {n : Nat → Eval β} (h : Follows E ρ V m n) :
    Follows E ρ V m fun k => n (k + c) := by
  intro w t hw hne
  obtain ⟨k, r, hk, hr⟩ := h w t hw hne
  exact ⟨k, r, fun j hj => hk (j + c) (by omega), hr⟩

theorem Follows.bind {m : Eval α} {n : Nat → Eval β} {p : α → Eval γ} {q : Nat → β → Eval δ}
    (h : Follows E ρ V m n) (hp : ∀ a b, V a b → Follows E ρ U (p a) fun k => q k b) :
    Follows E ρ U (m >>= p) fun k => n k >>= q k := by
  intro w t hw hne
  have hm := h w t hw
  rw [bind_apply] at hne ⊢
  simp only [bind_apply]
  rcases hw₁ : m w with ⟨r, w₁⟩
  rw [hw₁] at hne hm
  cases r with
  | ok a =>
    obtain ⟨k, ⟨r, t₁⟩, hk, hans, hpar⟩ := hm (by simp)
    cases hans with
    | @ok _ b hab =>
      obtain ⟨l, s, hl, hs⟩ := hp a b hab w₁ t₁ hpar hne
      refine ⟨max k l, s, fun j hj => ?_, hs⟩
      rw [hk j (by omega)]
      exact hl j (by omega)
  | error fault =>
    obtain ⟨k, ⟨r, t₁⟩, hk, hans, hpar⟩ := hm (by simpa using hne)
    cases hans with
    | @error c x y hxy =>
      refine ⟨k, (.error (.error c y), t₁), fun j hj => ?_, .error hxy, hpar⟩
      rw [hk j hj]

theorem Follows.ite {b : Prop} [Decidable b] {m m' : Eval α} {n n' : Nat → Eval β}
    (h : Follows E ρ V m n) (h' : Follows E ρ V m' n') :
    Follows E ρ V (if b then m else m') fun k => if b then n k else n' k := by
  by_cases hb : b
  · simpa only [if_pos hb] using h
  · simpa only [if_neg hb] using h'

/-! ### Places -/

theorem locate_apply (e : Expr) (m : Eval Value) (w : World) :
    locate e m w = ((m w).1.mapError (Fault.placed (place? e)), (m w).2) := by
  rw [locate]
  rcases m w with ⟨r, w₁⟩
  cases r with
  | ok v => rfl
  | error fault =>
    cases fault with
    | error c p => cases p <;> rfl
    | limit => rfl

theorem mapError_eq_limit {r : Except Fault α} {p : Option Pos} :
    r.mapError (Fault.placed p) = .error .limit ↔ r = .error .limit := by
  cases r with
  | ok a => simp [Except.mapError]
  | error fault => cases fault <;> simp [Except.mapError, Fault.placed]

theorem Answers.placed {r : Except Fault α} {s : Except Fault β} {x y : Option Pos}
    (h : Answers ρ V r s) (hρ : ∀ p q, ρ p q → σ (p <|> x) (q <|> y)) :
    Answers σ V (r.mapError (Fault.placed x)) (s.mapError (Fault.placed y)) := by
  cases h with
  | ok hab => exact .ok hab
  | error hpq => exact .error (hρ _ _ hpq)

theorem Follows.locate {U : Value → Value → Prop} {m : Eval Value} {n : Nat → Eval Value}
    (h : Follows E ρ U m n) (e e' : Expr)
    (hρ : ∀ p q, ρ p q → σ (p <|> place? e) (q <|> place? e')) :
    Follows E σ U (locate e m) fun k => locate e' (n k) := by
  intro w t hw hne
  simp only [locate_apply] at hne ⊢
  obtain ⟨k, ⟨r, t₁⟩, hk, hans, hpar⟩ := h w t hw (fun hl => hne (mapError_eq_limit.2 hl))
  exact ⟨k, (r.mapError (Fault.placed (place? e')), t₁), fun j hj => by rw [hk j hj],
    hans.placed hρ, hpar⟩

/-! ### The helpers of the evaluator -/

/-- Where a computation has no limits, one run is enough. -/
theorem follows_of_apply {m : Eval α} {n : Eval β}
    (h : ∀ w t, w.Parallel E t → Answers ρ V (m w).1 (n t).1 ∧ (m w).2.Parallel E (n t).2) :
    Follows E ρ V m fun _ => n :=
  fun w t hw _ => ⟨0, n t, fun _ _ => rfl, h w t hw⟩

section Frame

variable (f : FrameId) (x : String)

theorem follows_resolve :
    Follows E ρ (Value.Parallel E) (resolve f x) fun _ => resolve f x :=
  follows_of_apply fun _ _ hw => ⟨.ok (hw.store.resolve f x), hw⟩

theorem follows_update {v u : Value} (hv : v.Parallel E u) :
    Follows E ρ Eq (update f x v) fun _ => update f x u :=
  follows_of_apply fun _ _ hw => ⟨.ok rfl, hw.store.update f x hv, hw.log⟩

theorem follows_create (hρ : ρ none none) {v u : Value} (hv : v.Parallel E u) :
    Follows E ρ Eq (create f x v) fun _ => create f x u := by
  refine follows_of_apply fun w t hw => ?_
  rw [create, create, hw.store.binds]
  split
  · exact ⟨.error hρ, hw⟩
  · exact ⟨.ok rfl, hw.store.set f x hv, hw.log⟩

theorem follows_emit {v u : Value} (hv : v.Parallel E u) :
    Follows E ρ Eq (emit f v) fun _ => emit f u :=
  follows_of_apply fun _ _ hw =>
    ⟨.ok rfl, hw.store, .cons (.inr ⟨(hw.store.sink? f).symm, hv⟩) hw.log⟩

theorem follows_makeClosure (params : List String) {a b : Expr} (h : E a b) :
    Follows E ρ (Value.Parallel E) (makeClosure params a f) fun _ => makeClosure params b f := by
  refine follows_of_apply fun w t hw => ?_
  simp only [makeClosure, hw.store.born]
  refine ⟨.ok (.closure params f _ h), ?_, hw.log⟩
  exact hw.store.modify f fun _ _ hframe => { hframe with born := rfl }

end Frame

theorem follows_newFrame (parent : Option FrameId) :
    Follows E ρ Eq (newFrame (.fresh parent none none)) fun _ =>
      newFrame (.fresh parent none none) :=
  follows_of_apply fun _ _ hw =>
    ⟨.ok hw.store.size.symm, hw.store.push ⟨rfl, .nil, rfl, rfl, rfl⟩, hw.log⟩

theorem follows_asBool (hρ : ρ none none) (test : Test) {v u : Value} (hv : v.Parallel E u) :
    Follows E ρ Eq (asBool test v) fun _ => asBool test u := by
  cases hv with
  | bool b => exact follows_pure rfl
  | _ => exact follows_fail _ hρ

theorem follows_apply (hρ : ρ none none) (op : Op) {x x' y y' : Value} (hx : x.Parallel E x')
    (hy : y.Parallel E y') :
    Follows E ρ (Value.Parallel E) (ofExcept (op.apply x y)) fun _ =>
      ofExcept (op.apply x' y') := by
  have happly : op.apply x' y' = op.apply x y := by
    cases hx <;> cases hy <;> rfl
  rw [happly]
  cases h : op.apply x y with
  | ok v =>
    refine follows_pure ?_
    cases v with
    | null => exact .null
    | bool b => exact .bool b
    | int n => exact .int n
    | closure params body f i => exact absurd h Op.apply_ne_closure
    | host a => exact .host a
  | error c => exact follows_fail c hρ

theorem follows_bindParams (hρ : ρ none none) (f : FrameId) (xs : List String) {vs us : List Value}
    (h : List.Forall₂ (Value.Parallel E) vs us) :
    Follows E ρ Eq (bindParams f xs vs) fun _ => bindParams f xs us := by
  induction h generalizing xs with
  | nil => cases xs <;> exact follows_pure rfl
  | cons hv _ ih =>
    cases xs with
    | nil => exact follows_pure rfl
    | cons x xs => exact (follows_create f x hρ hv).bind fun _ _ _ => ih xs

theorem follows_whileTrue {test : Eval Bool} {test' : Nat → Eval Bool} {body : Eval Value}
    {body' : Nat → Eval Value} (ht : Follows E ρ Eq test test')
    (hb : Follows E ρ (Value.Parallel E) body body') (rounds : Nat) :
    Follows E ρ (Value.Parallel E) (whileTrue test body rounds) fun k =>
      whileTrue (test' k) (body' k) rounds := by
  induction rounds with
  | zero => exact follows_limit _
  | succ rounds ih =>
    refine ht.bind fun b b' hbb' => ?_
    subst hbb'
    exact .ite (hb.bind fun _ _ _ => ih) (follows_pure .null)

section Runs

variable {run : Expr → Eval Value} {run' : Nat → Expr → Eval Value} {es es' : List Expr}

theorem follows_runAll
    (h : List.Forall₂ (fun a b => Follows E ρ (Value.Parallel E) (run a) fun k => run' k b) es es')
    {v u : Value} (hv : v.Parallel E u) :
    Follows E ρ (Value.Parallel E) (runAll run v es) fun k => runAll (run' k) u es' := by
  induction h generalizing v u with
  | nil => exact follows_pure hv
  | cons he _ ih => exact he.bind fun _ _ hv => ih hv

theorem follows_evalArgs
    (h : List.Forall₂ (fun a b => Follows E ρ (Value.Parallel E) (run a) fun k => run' k b) es es') :
    Follows E ρ (List.Forall₂ (Value.Parallel E)) (evalArgs run es) fun k =>
      evalArgs (run' k) es' := by
  induction h with
  | nil => exact follows_pure .nil
  | cons he _ ih => exact he.bind fun _ _ hv => ih.bind fun _ _ hvs => follows_pure (.cons hv hvs)

end Runs

section Step

variable {run : Expr → FrameId → Eval Value} {run' : Nat → Expr → FrameId → Eval Value}
  (hρ : ρ none none)
  (hrun : ∀ e e' f, E e e' → Follows E ρ (Value.Parallel E) (run e f) fun k => run' k e' f)
include hρ hrun

theorem follows_callWith {v u : Value} (hv : v.Parallel E u) {vs us : List Value}
    (hvs : List.Forall₂ (Value.Parallel E) vs us) :
    Follows E ρ (Value.Parallel E) (callWith run v vs) fun k => callWith (run' k) u us := by
  cases hv with
  | @closure a b params frame serial hbody =>
    simp only [callWith, hvs.length_eq]
    refine .ite ?_ (follows_fail _ hρ)
    refine (follows_newFrame _).bind fun inner inner' hinner => ?_
    subst hinner
    exact (follows_bindParams hρ inner params hvs).bind fun _ _ _ => hrun a b inner hbody
  | _ => exact follows_fail _ hρ

end Step

/-! ## Nodes -/

end Eval

open Eval in
/-- Parallel nodes follow each other if related parts do; of a sequence this is asked for its
leaves. -/
theorem follows_step {ρ : Option Pos → Option Pos → Prop} (hρ : ρ none none)
    {run inner : Expr → FrameId → Eval Value} {run' inner' : Nat → Expr → FrameId → Eval Value}
    (hrun : ∀ e e' f, E e e' → Follows E ρ (Value.Parallel E) (run e f) fun k => run' k e' f)
    (hinner : ∀ e e' f, E e e' → Follows E ρ (Value.Parallel E) (inner e f) fun k => inner' k e' f)
    {e e' : Expr} (h : e.Parallel E e') (hleaves : List.Forall₂ E e.leaves e'.leaves) (rounds : Nat)
    (f : FrameId) :
    Follows E ρ (Value.Parallel E) (step rounds run inner e f) fun k =>
      step rounds (run' k) (inner' k) e' f := by
  cases h with
  | literal pos hv => exact follows_pure hv
  | var x pos => exact follows_resolve f x
  | @print a a' pos ha =>
    exact (hrun a a' f ha).bind fun _ _ hv => (follows_emit f hv).bind fun _ _ _ => follows_pure hv
  | @binary a a' b b' op pos ha hb =>
    exact (hrun a a' f ha).bind fun _ _ hx => (hrun b b' f hb).bind fun _ _ hy =>
      follows_apply hρ op hx hy
  | @branch a a' b b' c c' pos ha hb hc =>
    refine (hrun a a' f ha).bind fun _ _ hv => (follows_asBool hρ _ hv).bind fun x y hxy => ?_
    subst hxy
    exact .ite (hrun b b' f hb) (hrun c c' f hc)
  | @loop a a' b b' pos ha hb =>
    exact follows_whileTrue ((hrun a a' f ha).bind fun _ _ hv => follows_asBool hρ _ hv)
      (hrun b b' f hb) rounds
  | seq pos ha hb => exact follows_runAll (hleaves.imp fun s s' hs => hrun s s' f hs) .null
  | @declare a a' x pos ha =>
    exact (hrun a a' f ha).bind fun _ _ hv => (follows_create f x hρ hv).bind fun _ _ _ =>
      follows_resolve f x
  | @assign a a' x pos ha =>
    exact (hrun a a' f ha).bind fun _ _ hv => (follows_update f x hv).bind fun _ _ _ =>
      follows_resolve f x
  | function params pos ha => exact follows_makeClosure f params ha
  | @call a a' args args' pos ha hargs =>
    refine (hrun a a' f ha).bind fun v u hv => ?_
    cases hv with
    | closure params frame serial hbody =>
      exact (follows_evalArgs (hargs.imp fun s s' hs => hinner s s' f hs)).bind fun _ _ hvs =>
        follows_callWith hρ hinner (.closure params frame serial hbody) hvs
    | _ => exact follows_fail _ hρ
  | blank => exact follows_fail _ hρ
  | host h => exact follows_fail _ hρ

/-- Where an evaluation follows a computation and both stay within their limits, whatever these are,
they have parallel results. -/
theorem Eval.Follows.agree {α : Type} {ρ : Option Pos → Option Pos → Prop} {V : α → Value → Prop}
    {m : Eval α} {rounds depth : Nat} {e : Expr} {f : FrameId} {w t : World}
    (h : Follows E ρ V m fun k => eval rounds k e f) (hw : w.Parallel E t)
    (hm : (m w).1 ≠ .error .limit) (he : (eval rounds depth e f t).1 ≠ .error .limit) :
    Answers ρ V (m w).1 (eval rounds depth e f t).1 ∧
      (m w).2.Parallel E (eval rounds depth e f t).2 := by
  obtain ⟨k, r, hk, hr⟩ := h w t hw hm
  have hmore := eval_extends (Nat.le_refl rounds) (Nat.le_max_right k depth) e f t he
  have hlast : eval rounds (max k depth) e f t = r := hk _ (Nat.le_max_left k depth)
  rw [← hmore, hlast]
  exact hr

theorem Eval.Follows.ne_limit {α β : Type} {ρ : Option Pos → Option Pos → Prop} {V : α → β → Prop}
    {m : Eval α} {n : Nat → Eval β} {w t : World} (h : Follows E ρ V m n) (hw : w.Parallel E t)
    (hm : (m w).1 ≠ .error .limit) : ∃ k, (n k t).1 ≠ .error .limit := by
  obtain ⟨k, r, hk, hans, -⟩ := h w t hw hm
  refine ⟨k, ?_⟩
  rw [hk k (Nat.le_refl k)]
  intro hr
  rw [hr] at hans
  generalize (m w).1 = x at hans
  cases hans

end Featherweight
