import Featherweight.Proofs.BareEval
import Featherweight.Proofs.Sessions
import Featherweight.Proofs.WellFormed
import Featherweight.Report

/-!
# Featherweight.Proofs.Renumbered

Other frames in front of its own, and sinks, have no part in what an evaluation does.

* `World.behind` : a world with older frames in front of its own, which get other numbers, and
  without sinks.
* `Discipline.written` : frames that are there are used, and code has no closures in it.
* `Transfers` : one computation does behind the older frames what another does without them.
* `eval_behind` : so does each evaluation of written code.
-/

namespace Featherweight

/-- The value where all frames have numbers that are greater by `k`. -/
def Value.shifted (k : Nat) : Value → Value
  | .closure params body f i => .closure params body (f + k) i
  | .null => .null
  | .bool b => .bool b
  | .int n => .int n
  | .host h => .host h

def Frame.shifted (k : Nat) (a : Frame) : Frame :=
  { a with
    parent := a.parent.map (· + k)
    vars := a.vars.map fun x => (x.1, x.2.shifted k)
    sink := none }

def Store.behind (s old : Store) : Store := old ++ s.map (Frame.shifted old.size)

def World.behind (w : World) (old : Store) : World :=
  ⟨w.store.behind old, w.log.map fun p => (none, p.2.shifted old.size)⟩

@[simp] theorem Value.display_shifted (k : Nat) (v : Value) : (v.shifted k).display = v.display := by
  cases v <;> rfl

theorem Op.apply_shifted (op : Op) (k : Nat) (x y : Value) :
    op.apply (x.shifted k) (y.shifted k) = op.apply x y := by
  cases x <;> cases y <;> simp [Value.shifted, apply, Value.typeName]

/-! ## The store -/

namespace Frame

variable (k : Nat) (a : Frame) (x : String)

theorem get?_shifted : (a.shifted k).get? x = (a.get? x).map (Value.shifted k) :=
  lookup_map_values (Value.shifted k) x a.vars

theorem set_shifted (v : Value) : (a.set x v).shifted k = (a.shifted k).set x (v.shifted k) := by
  simp only [set, shifted, bindIn_map_values]

end Frame

namespace Store

variable (s old : Store) (f : FrameId) (x : String)

@[simp] theorem size_behind : (s.behind old).size = s.size + old.size := by
  simp [behind, Nat.add_comm]

@[simp] theorem getElem?_behind :
    (s.behind old)[f + old.size]? = (s[f]?).map (Frame.shifted old.size) := by
  rw [behind, Array.getElem?_append_right (Nat.le_add_left _ _), Nat.add_sub_cancel,
    Array.getElem?_map]

theorem getElem?_behind_of_lt {i : FrameId} (h : i < old.size) : (s.behind old)[i]? = old[i]? := by
  rw [behind, Array.getElem?_append_left h]

theorem behind_empty : behind #[] old = old := by simp [behind]

theorem behind_push (a : Frame) :
    behind (s.push a) old = (s.behind old).push (a.shifted old.size) := by
  rw [behind, behind, Array.map_push, Array.append_push]

theorem behind_root (sink : Option SinkId) (source : Option String) :
    behind #[.fresh none sink source] old = old.push (.fresh none none source) := by
  have hpush := behind_push #[] old (.fresh none sink source)
  rw [behind_empty] at hpush
  exact hpush

theorem behind_modify (k l : Frame → Frame)
    (h : ∀ a : Frame, (k a).shifted old.size = l (a.shifted old.size)) :
    behind (s.modify f k) old = (s.behind old).modify (f + old.size) l := by
  apply Array.ext_getElem?
  intro i
  by_cases hi : i < old.size
  · have hne : f + old.size ≠ i := Nat.ne_of_gt (Nat.lt_of_lt_of_le hi (Nat.le_add_left _ _))
    rw [getElem?_behind_of_lt _ _ hi, Array.getElem?_modify, if_neg hne,
      getElem?_behind_of_lt _ _ hi]
  · obtain ⟨j, rfl⟩ : ∃ j, i = j + old.size := ⟨i - old.size, by omega⟩
    rw [getElem?_behind, Array.getElem?_modify, Array.getElem?_modify, getElem?_behind]
    by_cases hfj : f = j
    · rw [if_pos hfj, if_pos (congrArg (· + old.size) hfj)]
      cases s[j]? with
      | none => rfl
      | some a => exact congrArg some (h a)
    · rw [if_neg hfj, if_neg (fun heq => hfj (Nat.add_right_cancel heq))]

theorem get?_behind : (s.behind old).get? (f + old.size) x = (s.get? f x).map (Value.shifted old.size) := by
  rw [get?, get?, getElem?_behind]
  cases s[f]? with
  | none => rfl
  | some a => exact a.get?_shifted old.size x

theorem binds_behind : (s.behind old).binds (f + old.size) x = s.binds f x := by
  rw [binds, binds, get?_behind, Option.isSome_map]

theorem set_behind (v : Value) :
    (s.set f x v).behind old = (s.behind old).set (f + old.size) x (v.shifted old.size) :=
  s.behind_modify old f _ _ fun a => a.set_shifted old.size x v

section Chain

variable {s} (hs : ∀ {i : FrameId} {a : Frame} {p : FrameId},
  s[i]? = some a → a.parent = some p → p < i)
include hs

/-- Parents are older, so the frames in front do not lengthen a chain. -/
theorem chain_behind : (s.behind old).chain (f + old.size) = (s.chain f).map (· + old.size) := by
  have hfrom (n m : Nat) (f : FrameId) (hn : f < n) (hm : f < m) :
      (s.behind old).chainFrom n (f + old.size) = (s.chainFrom m f).map (· + old.size) := by
    induction n generalizing m f with
    | zero => exact absurd hn (Nat.not_lt_zero f)
    | succ n ih =>
      obtain ⟨m, rfl⟩ := Nat.exists_eq_succ_of_ne_zero (Nat.ne_zero_of_lt hm)
      rw [chainFrom, chainFrom, getElem?_behind]
      cases ha : s[f]? with
      | none => rfl
      | some a =>
        dsimp only [Option.map_some, Frame.shifted]
        cases hp : a.parent with
        | none => rfl
        | some p =>
          have hlt : p < f := hs ha hp
          dsimp only [Option.map_some]
          rw [ih m p (Nat.lt_of_lt_of_le hlt (Nat.le_of_lt_succ hn))
            (Nat.lt_of_lt_of_le hlt (Nat.le_of_lt_succ hm)), List.map_cons]
  exact hfrom _ _ f (Nat.lt_succ_of_le (Nat.le_add_right f old.size)) (Nat.lt_succ_self f)

theorem resolve_behind :
    (s.behind old).resolve (f + old.size) x = (s.resolve f x).shifted old.size := by
  rw [resolve, resolve, chain_behind old f hs]
  induction s.chain f with
  | nil => rfl
  | cons g chain ih =>
    rw [List.map_cons, List.findSome?_cons, List.findSome?_cons, get?_behind]
    cases s.get? g x with
    | none => exact ih
    | some v => rfl

theorem sink?_behind : (s.behind old).sink? (f + old.size) = none := by
  rw [sink?, chain_behind old f hs, List.findSome?_eq_none_iff]
  intro g hg
  obtain ⟨i, -, rfl⟩ := List.mem_map.1 hg
  rw [getElem?_behind]
  cases s[i]? <;> rfl

theorem update_behind (v : Value) :
    (s.update f x v).behind old = (s.behind old).update (f + old.size) x (v.shifted old.size) := by
  have howner : (s.behind old).owner? (f + old.size) x = (s.owner? f x).map (· + old.size) := by
    rw [owner?, owner?, chain_behind old f hs, List.find?_map]
    have hbinds : (fun g => (s.behind old).binds g x) ∘ (· + old.size) = fun g => s.binds g x :=
      funext fun g => s.binds_behind old g x
    rw [hbinds]
  have hroot : (s.behind old).root (f + old.size) = s.root f + old.size := by
    rw [root, root, chain_behind old f hs, List.getLastD_eq_getLast?, List.getLastD_eq_getLast?,
      List.getLast?_map]
    cases (s.chain f).getLast? <;> rfl
  rw [update, update, howner, hroot, set_behind]
  cases s.owner? f x <;> rfl

end Chain

end Store

/-! ## Written code -/

namespace Discipline

/-- Use frames that are there, and code that has no closures in it, as all written code. -/
def written : Discipline :=
  ofFrames (fun e => ∀ params body f i pos, e ≠ .literal (.closure params body f i) pos)
    (fun n f => f < n) 0 (fun _ _ _ hn hf => Nat.lt_of_lt_of_le hf hn)
    (fun n _ => Nat.lt_succ_self n) (fun _ _ hf _ => hf)

variable {s : Store}

theorem Obeyed.older (h : written.Obeyed s) {i p : FrameId} {a : Frame} (ha : s[i]? = some a)
    (hp : a.parent = some p) : p < i :=
  h.parent ha (Array.getElem?_eq_some_iff.1 ha).1 hp

theorem Obeyed.push_root (h : written.Obeyed s) (sink : Option SinkId) (source : Option String) :
    written.Obeyed (s.push (.fresh none sink source)) := by
  refine ⟨Nat.zero_le _, fun {i a p} ha _ hp => ?_, fun {i a x v} ha _ hv => ?_⟩
  · rcases Store.push_cases ha with ⟨-, rfl⟩ | ha
    · cases hp
    · exact h.older ha hp
  · rcases Store.push_cases ha with ⟨-, rfl⟩ | ha
    · cases hv
    · rw [Array.size_push]
      exact (h.binding ha (Array.getElem?_eq_some_iff.1 ha).1 hv).mono (Nat.le_succ _)

theorem written_empty : written.Obeyed #[] :=
  ⟨Nat.zero_le _, fun ha => by simp at ha, fun ha => by simp at ha⟩

/-- The tree of a text is written code. -/
theorem written_of_parse {text : String} {e : Expr} (h : parse text = .ok e) (n : Nat) :
    written.Code n e := by
  have hnone := Session.not_captures_of_parse h
  refine ofFrames_code.2 ⟨?_, fun f hf => absurd hf (hnone f)⟩
  rintro _ hmem params body f i pos rfl
  exact hnone f ⟨params, body, i, e.mem_values_of_mem_nodes hmem⟩

end Discipline

/-! ## Computations -/

namespace Eval

open Discipline

variable {old : Store} {n m : Nat} {α β γ δ : Type} {Q : Nat → α → Prop}

/-- Where there are `n` frames or more, and the discipline of written code is obeyed, `d` does behind
the older frames what `c` does without them; `k` turns the value of `c` into that of `d`. -/
def Transfers (old : Store) (n : Nat) (k : α → β) (c : Eval α) (d : Eval β) : Prop :=
  ∀ w, written.Obeyed w.store → n ≤ w.store.size →
    d (w.behind old) = ((c w).1.map k, (c w).2.behind old)

theorem Transfers.later {k : α → β} {c : Eval α} {d : Eval β} (h : Transfers old n k c d)
    (hn : n ≤ m) : Transfers old m k c d :=
  fun w hw hm => h w hw (Nat.le_trans hn hm)

theorem transfers_pure (k : α → β) (a : α) : Transfers old n k (pure a) (pure (k a)) :=
  fun _ _ _ => rfl

theorem transfers_fail (k : α → β) (fault : Fault) :
    Transfers old n k (fail fault) (fail fault) :=
  fun _ _ _ => rfl

theorem Transfers.bind {k : α → β} {l : γ → δ} {c : Eval α} {d : Eval β} {p : α → Eval γ}
    {q : β → Eval δ} (h : Transfers old n k c d) (hc : Keeps written n Q c)
    (hp : ∀ m a, n ≤ m → Q m a → Transfers old m l (p a) (q (k a))) :
    Transfers old n l (c >>= p) (d >>= q) := by
  intro w hw hn
  obtain ⟨hlead, hok⟩ := hc w hw hn
  rw [bind_apply, bind_apply, h w hw hn]
  generalize c w = result at hlead hok
  obtain ⟨r, w₁⟩ := result
  cases r with
  | ok a =>
    have hm : n ≤ w₁.store.size := Nat.le_trans hn hlead.size_le
    exact hp _ a hm (hok a rfl) w₁ hlead.obeyed (Nat.le_refl _)
  | error fault => rfl

theorem Transfers.locate {k : Value → Value} {c d : Eval Value} (h : Transfers old n k c d)
    (e : Expr) : Transfers old n k (locate e c) (locate e d) := by
  intro w hw hn
  rw [Eval.locate, Eval.locate, h w hw hn]
  rcases c w with ⟨r, w₁⟩
  cases r with
  | ok v => rfl
  | error fault =>
    cases fault with
    | error cause pos => cases pos <;> rfl
    | limit => rfl

theorem Transfers.ite {k : α → β} {b : Prop} [Decidable b] {c c' : Eval α} {d d' : Eval β}
    (h : Transfers old n k c d) (h' : Transfers old n k c' d') :
    Transfers old n k (if b then c else c') (if b then d else d') := by
  by_cases hb : b
  · rw [if_pos hb, if_pos hb]
    exact h
  · rw [if_neg hb, if_neg hb]
    exact h'

section Frame

variable (f : FrameId) (x : String) (v : Value)

theorem transfers_resolve :
    Transfers old n (Value.shifted old.size) (resolve f x) (resolve (f + old.size) x) := by
  intro w hw _
  simp only [resolve, read, World.behind, Store.resolve_behind old f x hw.older, Except.map]

theorem transfers_update :
    Transfers old n id (update f x v) (update (f + old.size) x (v.shifted old.size)) := by
  intro w hw _
  simp only [update, World.behind, Store.update_behind old f x hw.older, Except.map, id]

theorem transfers_create :
    Transfers old n id (create f x v) (create (f + old.size) x (v.shifted old.size)) := by
  intro w _ _
  simp only [create, World.behind, Store.binds_behind]
  split
  · rfl
  · simp only [Store.set_behind, Except.map, id]

theorem transfers_emit : Transfers old n id (emit f v) (emit (f + old.size) (v.shifted old.size)) := by
  intro w hw _
  simp only [emit, World.behind, Store.sink?_behind old f hw.older, Except.map, id, List.map_cons]

theorem transfers_makeClosure (params : List String) (body : Expr) :
    Transfers old n (Value.shifted old.size) (makeClosure params body f)
      (makeClosure params body (f + old.size)) := by
  intro w _ _
  have hborn : (((w.store.behind old)[f + old.size]?).map (·.born)).getD 0 =
      ((w.store[f]?).map (·.born)).getD 0 := by
    rw [Store.getElem?_behind]
    cases w.store[f]? <;> rfl
  simp only [makeClosure, World.behind, hborn, Except.map, Value.shifted]
  rw [Store.behind_modify]
  exact fun _ => rfl

/-- A new frame gets the number behind the last one, in front of which the older frames count too. -/
theorem transfers_newFrame : Transfers old n (· + old.size) (newFrame (.fresh (some f) none none))
    (newFrame (.fresh (some (f + old.size)) none none)) := by
  intro w _ _
  simp only [newFrame, World.push, World.behind, Store.size_behind, Store.behind_push, Except.map]
  rfl

end Frame

theorem transfers_asBool (test : Test) (v : Value) :
    Transfers old n id (asBool test v) (asBool test (v.shifted old.size)) := by
  cases v with
  | bool b => exact transfers_pure id b
  | _ => exact transfers_fail id (.error _ none)

theorem transfers_apply (op : Op) (x y : Value) :
    Transfers old n (Value.shifted old.size) (ofExcept (op.apply x y))
      (ofExcept (op.apply (x.shifted old.size) (y.shifted old.size))) := by
  rw [op.apply_shifted]
  cases h : op.apply x y with
  | ok v =>
    cases v with
    | closure params body f i => exact absurd h Op.apply_ne_closure
    | _ => exact transfers_pure _ _
  | error cause => exact transfers_fail _ _

theorem transfers_bindParams {f : FrameId} (hf : written.frame n f) (xs : List String)
    {vs : List Value} (hvs : ∀ v ∈ vs, written.Admits n v) :
    Transfers old n id (bindParams f xs vs)
      (bindParams (f + old.size) xs (vs.map (Value.shifted old.size))) := by
  induction xs generalizing vs with
  | nil => exact transfers_pure id ()
  | cons x xs ih =>
    cases vs with
    | nil => exact transfers_pure id ()
    | cons v vs =>
      obtain ⟨hv, hvs⟩ := List.forall_mem_cons.1 hvs
      exact (transfers_create f x v).bind (keeps_create hf hv x) fun m _ hm _ => (ih hvs).later hm

theorem transfers_whileTrue {test test' : Eval Bool} {body body' : Eval Value}
    (ht : Transfers old n id test test') (hkeeps : Keeps written n (fun _ _ => True) test)
    (hb : Transfers old n (Value.shifted old.size) body body')
    (hkeeps' : Keeps written n written.Admits body) (rounds : Nat) :
    Transfers old n (Value.shifted old.size) (whileTrue test body rounds)
      (whileTrue test' body' rounds) := by
  induction rounds with
  | zero => exact transfers_fail _ _
  | succ rounds ih =>
    refine ht.bind hkeeps fun m _ hm _ => .ite ?_ (transfers_pure _ Value.null)
    exact (hb.later hm).bind (hkeeps'.later hm) fun m' _ hm' _ => ih.later (Nat.le_trans hm hm')

section Many

variable {run run' : Expr → Eval Value} {es : List Expr}
  (h : ∀ e ∈ es, Transfers old n (Value.shifted old.size) (run e) (run' e) ∧
    Keeps written n written.Admits (run e))
include h

theorem transfers_runAll (last : Value) : Transfers old n (Value.shifted old.size)
    (runAll run last es) (runAll run' (last.shifted old.size) es) := by
  induction es generalizing n last with
  | nil => exact transfers_pure _ last
  | cons e es ih =>
    obtain ⟨⟨he, hkeeps⟩, hes⟩ := List.forall_mem_cons.1 h
    exact he.bind hkeeps fun m v hm _ =>
      ih (fun e he => (hes e he).imp (·.later hm) (·.later hm)) v

theorem transfers_evalArgs : Transfers old n (List.map (Value.shifted old.size)) (evalArgs run es)
    (evalArgs run' es) := by
  induction es generalizing n with
  | nil => exact transfers_pure _ []
  | cons e es ih =>
    obtain ⟨⟨he, hkeeps⟩, hes⟩ := List.forall_mem_cons.1 h
    refine he.bind hkeeps fun m v hm _ => ?_
    have hes' : ∀ e ∈ es, Transfers old m (Value.shifted old.size) (run e) (run' e) ∧
        Keeps written m written.Admits (run e) :=
      fun e he => (hes e he).imp (·.later hm) (·.later hm)
    exact (ih hes').bind (keeps_evalArgs fun e he => (hes' e he).2) fun _ vs _ _ =>
      transfers_pure _ (v :: vs)

end Many

theorem transfers_callWith {run : Expr → FrameId → Eval Value}
    (h : ∀ m e g, written.Code m e → written.frame m g →
      Transfers old m (Value.shifted old.size) (run e g) (run e (g + old.size)))
    {v : Value} (hv : written.Admits n v) {args : List Value}
    (hargs : ∀ a ∈ args, written.Admits n a) :
    Transfers old n (Value.shifted old.size) (callWith run v args)
      (callWith run (v.shifted old.size) (args.map (Value.shifted old.size))) := by
  cases v with
  | closure params body frame i =>
    unfold callWith
    dsimp only [Value.shifted]
    rw [List.length_map]
    refine .ite ?_ (transfers_fail _ _)
    refine (transfers_newFrame frame).bind (keeps_newFrame (written.closure.1 hv.1))
      fun m inner hm hinner => ?_
    have hargs' : ∀ a ∈ args, written.Admits m a := fun a ha => (hargs a ha).mono hm
    refine (transfers_bindParams hinner params hargs').bind (keeps_bindParams hinner params hargs')
      fun m' _ hm' _ => ?_
    exact h m' body inner (Discipline.Code.mono hv.2 (Nat.le_trans hm hm'))
      (written.frame_mono hm' hinner)
  | _ => exact transfers_fail _ _

end Eval

open Eval Discipline in
theorem eval_behind (old : Store) {n : Nat} {e : Expr} {f : FrameId} (rounds depth : Nat)
    (he : written.Code n e) (hf : written.frame n f) :
    Transfers old n (Value.shifted old.size) (eval rounds depth e f)
      (eval rounds depth e (f + old.size)) := by
  induction depth using depth_induction generalizing n e f with
  | short depth h =>
    rw [eval_of_lt h, eval_of_lt h]
    exact transfers_fail _ _
  | node depth inner ih =>
    have hkeeps {m : Nat} {e : Expr} {f : FrameId} (he : written.Code m e) (hf : written.frame m f) :=
      eval_keeps rounds (depth + 1) he hf
    refine Transfers.locate ?_ e
    cases e with
    | literal v pos =>
      -- Code may hold any value but a closure, and the others have no frames.
      cases v with
      | closure params body g i => exact absurd rfl (he.1 params body g i pos)
      | _ => exact transfers_pure _ _
    | var x pos => exact transfers_resolve f x
    | print a pos =>
      refine (ih he.2 hf).bind (hkeeps he.2 hf) fun m v hm hv => ?_
      exact (transfers_emit f v).bind (keeps_emit hv) fun _ _ _ _ => transfers_pure _ v
    | binary op a b pos =>
      refine (ih he.2.1 hf).bind (hkeeps he.2.1 hf) fun m x hm _ => ?_
      have hb := Code.mono he.2.2 hm
      have hf' := written.frame_mono hm hf
      exact (ih hb hf').bind (hkeeps hb hf') fun _ y _ _ => transfers_apply op x y
    | branch test yes no pos =>
      refine (ih he.2.1 hf).bind (hkeeps he.2.1 hf) fun m v hm _ => ?_
      refine (transfers_asBool _ v).bind (keeps_asBool _ v) fun m' _ hm' _ => ?_
      have hle := Nat.le_trans hm hm'
      have hf' := written.frame_mono hle hf
      exact .ite (ih (Code.mono he.2.2.1 hle) hf') (ih (Code.mono he.2.2.2 hle) hf')
    | loop test body pos =>
      refine transfers_whileTrue ?_ ?_ (ih he.2.2 hf) (hkeeps he.2.2 hf) rounds
      · exact (ih he.2.1 hf).bind (hkeeps he.2.1 hf) fun _ v _ _ => transfers_asBool _ v
      · exact (hkeeps he.2.1 hf).bind fun _ v _ _ => keeps_asBool _ v
    | seq a b pos =>
      exact transfers_runAll (fun s hs => ⟨ih (he.leaves s hs) hf, hkeeps (he.leaves s hs) hf⟩) .null
    | declare x init pos =>
      refine (ih he.2 hf).bind (hkeeps he.2 hf) fun m v hm hv => ?_
      exact (transfers_create f x v).bind (keeps_create (written.frame_mono hm hf) hv x)
        fun _ _ _ _ => transfers_resolve f x
    | assign x value pos =>
      refine (ih he.2 hf).bind (hkeeps he.2 hf) fun m v hm hv => ?_
      exact (transfers_update f x v).bind (keeps_update (written.frame_mono hm hf) hv x)
        fun _ _ _ _ => transfers_resolve f x
    | function params body pos => exact transfers_makeClosure f params body
    | call callee args pos =>
      refine (ih he.2.1 hf).bind (hkeeps he.2.1 hf) fun m v hm hv => ?_
      cases v with
      | closure params body frame i =>
        have hargs : ∀ a ∈ args, Transfers old m (Value.shifted old.size) (eval rounds depth a f)
            (eval rounds depth a (f + old.size)) ∧
            Keeps written m written.Admits (eval rounds depth a f) := by
          intro a ha
          have hcode := (Expr.allIn_iff_forall args).1 he.2.2 a ha
          exact ⟨(inner hcode hf).later hm, (eval_keeps rounds depth hcode hf).later hm⟩
        refine (transfers_evalArgs hargs).bind (keeps_evalArgs fun a ha => (hargs a ha).2)
          fun m' vs hm' hvs => ?_
        exact transfers_callWith (fun m e g he hg => inner he hg) (hv.mono hm') hvs
      | _ => exact transfers_fail _ _
    | blank => exact transfers_fail _ _
    | host h => exact transfers_fail _ _

/-! ## Programs -/

namespace Session

variable {f : FrameId} {w : World}

theorem equip_behind (old : Store) (f : FrameId) (sink : Option SinkId) (source : Option String)
    (w : World) :
    (equip f sink source w).behind old = equip (f + old.size) none source (w.behind old) := by
  simp only [equip, World.behind]
  rw [Store.behind_modify]
  exact fun _ => rfl

/-- A program does the same behind older frames, whatever the sink of its frame is. -/
theorem evalParsed_behind (old : Store) {parsed : Except ParseError Expr}
    (hcode : ∀ e, parsed = .ok e → Discipline.written.Code w.store.size e)
    (hw : Discipline.written.Obeyed w.store) (hf : f < w.store.size) (sink : Option SinkId)
    (source : String) :
    evalParsed parsed (f + old.size) none source (w.behind old) =
      ((evalParsed parsed f sink source w).1.map (Value.shifted old.size),
        (evalParsed parsed f sink source w).2.behind old) := by
  cases parsed with
  | error err => rfl
  | ok e =>
    have hequip := equip_leads hw hf sink (some source)
    have heval := eval_behind old maxRounds maxDepth (hcode e rfl) hf _ hequip.obeyed hequip.size_le
    rw [equip_behind] at heval
    rw [evalParsed, evalParsed, evalProgram, evalProgram, evalIn, evalIn, heval]
    generalize eval maxRounds maxDepth e f (equip f sink (some source) w) = result
    obtain ⟨r, w'⟩ := result
    cases r with
    | ok v => rfl
    | error fault => cases fault <;> rfl

end Session

theorem Report.printed_behind (old : Store) (w : World) :
    printed (w.behind old).log = String.join (w.log.reverse.map fun p => line p.2.display) := by
  rw [printed, World.behind, ← List.map_reverse, List.filterMap_map, ← List.filterMap_eq_map']
  refine congrArg String.join (congrArg (List.filterMap · _) (funext fun p => ?_))
  exact congrArg (fun text => some (line text)) (Value.display_shifted old.size p.2)

end Featherweight
