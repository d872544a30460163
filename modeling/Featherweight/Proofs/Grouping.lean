import Featherweight.Proofs.BareEval
import Featherweight.Proofs.Lockstep

/-!
# Featherweight.Proofs.Grouping

How statements are grouped into sequences does not matter.

* `Eval.Agrees` : the same but for the places of errors. `Eval.Places` : every error has a place.
* `Expr.isAnchored` : a node that places its errors or has none, so that it does not matter which
  sequences it stands in.
* `Eval.byParts` runs the parts of a sequence one after the other, those that are sequences in the
  same way; `evalByParts` evaluates all sequences like this.
* `sequences_regrouped` : trees with the same leaves are evaluated alike, and as if by parts.
-/

namespace Featherweight

namespace Eval

variable {α β : Type}

/-! ## The places of errors -/

/-- The same world, and the same value or errors with the same cause. -/
def SameButPlace (x y : Except Fault α × World) : Prop :=
  bareWith id x.1 = bareWith id y.1 ∧ x.2 = y.2

def Agrees (m n : Eval α) : Prop := ∀ w, SameButPlace (m w) (n w)

theorem Agrees.refl (m : Eval α) : Agrees m m := fun _ => ⟨rfl, rfl⟩

theorem Agrees.symm {m n : Eval α} (h : Agrees m n) : Agrees n m :=
  fun w => ⟨(h w).1.symm, (h w).2.symm⟩

theorem Agrees.trans {m n p : Eval α} (h : Agrees m n) (h' : Agrees n p) : Agrees m p :=
  fun w => ⟨(h w).1.trans (h' w).1, (h w).2.trans (h' w).2⟩

theorem Agrees.bind {m n : Eval α} {p q : α → Eval β} (h : Agrees m n)
    (hp : ∀ a, Agrees (p a) (q a)) : Agrees (m >>= p) (n >>= q) := by
  intro w
  rw [bind_apply, bind_apply]
  obtain ⟨hresult, hworld⟩ := h w
  generalize m w = x at hresult hworld
  generalize n w = y at hresult hworld
  obtain ⟨r, w₁⟩ := x
  obtain ⟨s, w₂⟩ := y
  obtain rfl : w₁ = w₂ := hworld
  cases r with
  | ok a =>
    cases s with
    | ok b =>
      obtain rfl : a = b := Except.ok.inj hresult
      exact hp a w₁
    | error fault => cases hresult
  | error fault =>
    cases s with
    | ok b => cases hresult
    | error fault' => exact ⟨congrArg Except.error (Except.error.inj hresult), rfl⟩

theorem agrees_locate (e : Expr) (m : Eval Value) : Agrees (locate e m) m := by
  intro w
  rw [locate_apply]
  rcases m w with ⟨r, w₁⟩
  refine ⟨?_, rfl⟩
  cases r with
  | ok v => rfl
  | error fault => cases fault <;> rfl

def Places (m : Eval α) : Prop := ∀ w c, (m w).1 ≠ .error (.error c none)

theorem places_pure (a : α) : Places (pure a) := by
  intro w c h
  cases h

theorem places_limit : Places (fail .limit : Eval α) := by
  intro w c h
  cases h

theorem Places.bind {m : Eval α} {p : α → Eval β} (h : Places m) (hp : ∀ a, Places (p a)) :
    Places (m >>= p) := by
  intro w c
  rw [bind_apply]
  have hm := h w c
  generalize m w = x at hm
  obtain ⟨r, w₁⟩ := x
  cases r with
  | ok a => exact hp a w₁ c
  | error fault => simpa using hm

/-- Errors that have a place keep it. -/
theorem Places.locate_eq {m : Eval Value} (h : Places m) (e : Expr) : locate e m = m := by
  funext w
  have hm := h w
  rw [locate]
  generalize m w = x at hm
  obtain ⟨r, w₁⟩ := x
  cases r with
  | ok v => rfl
  | error fault =>
    cases fault with
    | error c p =>
      cases p with
      | none => exact absurd rfl (hm c)
      | some pos => rfl
    | limit => rfl

theorem places_locate {e : Expr} (h : (place? e).isSome = true) (m : Eval Value) :
    Places (locate e m) := by
  intro w c hc
  obtain ⟨pos, hpos⟩ := Option.isSome_iff_exists.1 h
  rw [locate_apply, hpos] at hc
  generalize (m w).1 = r at hc
  cases r with
  | ok v => cases hc
  | error fault =>
    cases fault with
    | error c' p => cases p <;> cases hc
    | limit => cases hc

theorem places_runAll {run : Expr → Eval Value} {es : List Expr} (h : ∀ e ∈ es, Places (run e))
    (last : Value) : Places (runAll run last es) := by
  induction es generalizing last with
  | nil => exact places_pure last
  | cons e es ih =>
    rw [List.forall_mem_cons] at h
    exact h.1.bind fun v => ih h.2 v

end Eval

open Eval

namespace Expr

/-- A node places its errors, if it can have any. -/
def isAnchored : Expr → Bool
  | literal .. => true
  | e => (place? e).isSome

theorem isAnchored_cases {s : Expr} (h : s.isAnchored = true) :
    (∃ v pos, s = literal v pos) ∨ (place? s).isSome = true := by
  cases s with
  | literal v pos => exact .inl ⟨v, pos, rfl⟩
  | _ => exact .inr h

theorem places_step {s : Expr} (h : s.isAnchored = true) (rounds : Nat)
    (run inner : Expr → FrameId → Eval Value) (f : FrameId) :
    Places (locate s (step rounds run inner s f)) := by
  rcases isAnchored_cases h with ⟨v, pos, rfl⟩ | h
  · rw [step, (places_pure v).locate_eq]
    exact places_pure v
  · exact places_locate h _

theorem places_eval {s : Expr} (h : s.isAnchored = true) (rounds depth : Nat) (f : FrameId) :
    Places (eval rounds depth s f) := by
  cases depth using depth_induction with
  | short depth hd =>
    rw [eval_of_lt hd]
    exact places_limit
  | node depth => exact places_step h rounds _ _ f

theorem places_leaves {e : Expr} (h : ∀ s ∈ e.leaves, s.isAnchored = true) (rounds depth : Nat)
    (f : FrameId) (last : Value) :
    Places (runAll (fun s => eval rounds depth s f) last e.leaves) :=
  places_runAll (fun s hs => places_eval (h s hs) rounds depth f) last

end Expr

/-! ## Sequences by parts -/

namespace Eval

/-- Run the leaves of a sequence, each sequence in it placing the errors of its parts. -/
def byParts (run : Expr → Eval Value) : Expr → Eval Value
  | .seq a b pos => locate (.seq a b pos) do
    let _ ← byParts run a
    byParts run b
  | e => run e

/-- But for places, only the leaves matter. -/
theorem agrees_byParts (run : Expr → Eval Value) (e : Expr) (last : Value) :
    Agrees (byParts run e) (runAll run last e.leaves) := by
  cases e with
  | seq a b pos =>
    rw [byParts, Expr.leaves_seq, runAll_append]
    have hfirst := agrees_byParts run a last
    have hsecond := agrees_byParts run b
    exact (agrees_locate _ _).trans (hfirst.bind fun v => hsecond v)
  | _ =>
    show Agrees (run _) (runAll run last [_])
    rw [runAll_singleton]
    exact .refl _

/-- If all leaves place their errors, the sequences have none to place. -/
theorem byParts_eq_runAll {run : Expr → Eval Value} {e : Expr} (h : ∀ s ∈ e.leaves, Places (run s))
    (last : Value) : byParts run e = runAll run last e.leaves := by
  cases e with
  | seq a b pos =>
    have hplaces : Places (runAll run last (Expr.seq a b pos).leaves) := places_runAll h last
    rw [Expr.leaves_seq, runAll_append] at hplaces ⊢
    simp only [Expr.leaves_seq, List.forall_mem_append] at h
    have hparts : (do let _ ← byParts run a; byParts run b) =
        (do let v ← runAll run last a.leaves; runAll run v b.leaves) := by
      rw [byParts_eq_runAll h.1 last]
      exact congrArg _ (funext fun v => byParts_eq_runAll h.2 v)
    rw [byParts, hparts, hplaces.locate_eq]
  | _ => exact (runAll_singleton run last _).symm

end Eval

/-! ## Trees with the same leaves -/

namespace Expr

theorem leaf_or_seq (e : Expr) : e.leaves = [e] ∨ ∃ a b pos, e = seq a b pos := by
  cases e with
  | seq a b pos => exact .inr ⟨a, b, pos, rfl⟩
  | _ => exact .inl rfl

theorem leaves_seq_ne_singleton (a b c : Expr) (pos : Option Pos) :
    (seq a b pos).leaves ≠ [c] := by
  intro h
  have ha : 0 < a.leaves.length := List.length_pos_of_ne_nil a.leaves_ne_nil
  have hb : 0 < b.leaves.length := List.length_pos_of_ne_nil b.leaves_ne_nil
  have hlength := congrArg List.length h
  rw [leaves_seq, List.length_append, List.length_singleton] at hlength
  omega

theorem eq_or_seq_of_leaves_eq {e e' : Expr} (h : e.leaves = e'.leaves) :
    e = e' ∨ (∃ a b pos, e = seq a b pos) ∧ ∃ a b pos, e' = seq a b pos := by
  rcases e.leaf_or_seq with hleaf | ⟨a, b, pos, rfl⟩
  · rcases e'.leaf_or_seq with hleaf' | ⟨a', b', pos', rfl⟩
    · rw [hleaf, hleaf'] at h
      exact .inl (List.singleton_inj.1 h)
    · exact absurd (h.symm.trans hleaf) (leaves_seq_ne_singleton a' b' e pos')
  · rcases e'.leaf_or_seq with hleaf' | hseq
    · exact absurd (h.trans hleaf') (leaves_seq_ne_singleton a b e' pos)
    · exact .inr ⟨⟨a, b, pos, rfl⟩, hseq⟩

/-- The leaves of a list of statements are those of the statements. -/
theorem leaves_sequence {stmts : List Expr} (h : stmts ≠ []) (pos : Option Pos) :
    (sequence stmts pos).leaves = stmts.flatMap leaves := by
  obtain ⟨e, rest, rfl⟩ := List.exists_cons_of_ne_nil h
  rw [sequence, List.flatMap_cons]
  clear h
  induction rest generalizing e with
  | nil => simp
  | cons s rest ih =>
    rw [List.foldl_cons, ih, leaves_seq, List.append_assoc, List.flatMap_cons]

/-- A block that is not empty has the leaves of its statements. -/
theorem leaves_spliced {block : List Expr} (h : block ≠ []) (before after : List Expr)
    (pos pos' : Option Pos) :
    (sequence (before ++ sequence block pos :: after) pos').leaves =
      (sequence (before ++ block ++ after) pos').leaves := by
  rw [leaves_sequence (by simp), leaves_sequence (by simp [h])]
  simp [leaves_sequence h]

end Expr

theorem eval_seq (rounds depth : Nat) (a b : Expr) (pos : Option Pos) (f : FrameId) :
    eval rounds (depth + 4) (.seq a b pos) f =
      locate (.seq a b pos)
        (runAll (fun s => eval rounds (depth + 1) s f) .null (Expr.seq a b pos).leaves) := rfl

section Regrouped

variable {e e' : Expr} (h : e.leaves = e'.leaves) (rounds depth : Nat) (f : FrameId)
include h

/-- Each of the trees can only place an error of one and the same computation. -/
theorem eval_cases_of_leaves_eq :
    eval rounds depth e f = eval rounds depth e' f ∨
      ∃ m, eval rounds depth e f = locate e m ∧ eval rounds depth e' f = locate e' m ∧
        ((∀ s ∈ e.leaves, s.isAnchored = true) → Places m) := by
  rcases Expr.eq_or_seq_of_leaves_eq h with rfl | ⟨⟨a, b, pos, rfl⟩, a', b', pos', rfl⟩
  · exact .inl rfl
  · cases depth using depth_induction with
    | short depth hd => exact .inl (by rw [eval_of_lt hd, eval_of_lt hd])
    | node depth =>
      refine .inr ⟨_, eval_seq rounds depth a b pos f, ?_, fun hanchored => ?_⟩
      · rw [eval_seq, h]
      · exact Expr.places_leaves hanchored rounds (depth + 1) f .null

theorem eval_agrees_of_leaves_eq : Agrees (eval rounds depth e f) (eval rounds depth e' f) := by
  rcases eval_cases_of_leaves_eq h rounds depth f with heq | ⟨m, hm, hm', -⟩
  · rw [heq]
    exact .refl _
  · rw [hm, hm']
    exact (agrees_locate e m).trans (agrees_locate e' m).symm

theorem eval_eq_of_leaves_eq
    (hplace : (∀ s ∈ e.leaves, s.isAnchored = true) ∨ e.pos? = e'.pos?) :
    eval rounds depth e f = eval rounds depth e' f := by
  rcases eval_cases_of_leaves_eq h rounds depth f with heq | ⟨m, hm, hm', hplaces⟩
  · exact heq
  · rw [hm, hm']
    rcases hplace with hanchored | hpos
    · rw [(hplaces hanchored).locate_eq, (hplaces hanchored).locate_eq]
    · funext w
      rw [locate_apply, locate_apply, place?, place?, hpos]

end Regrouped

section ByParts

variable (rounds depth : Nat) {a b : Expr} {pos : Option Pos} (f : FrameId)

theorem eval_agrees_byParts :
    Agrees (eval rounds (depth + 4) (.seq a b pos) f)
      (byParts (fun s => eval rounds (depth + 1) s f) (.seq a b pos)) :=
  (agrees_locate _ _).trans (agrees_byParts _ _ .null).symm

theorem eval_eq_byParts (h : ∀ s ∈ (Expr.seq a b pos).leaves, s.isAnchored = true) :
    eval rounds (depth + 4) (.seq a b pos) f =
      byParts (fun s => eval rounds (depth + 1) s f) (.seq a b pos) := by
  have hparts := byParts_eq_runAll (fun s hs => Expr.places_eval (h s hs) rounds (depth + 1) f) .null
  rw [hparts, eval_seq, (Expr.places_leaves h rounds (depth + 1) f .null).locate_eq]

end ByParts

/-! ## All sequences by parts -/

/-- Evaluate a tree as `eval` does, but a sequence by evaluating its first part and then its
second. -/
def evalByParts (rounds : Nat) : Nat → Expr → FrameId → Eval Value
  | depth + 4, e, here => locate e <|
    match e with
    | .seq a b _ => do
      let _ ← evalByParts rounds (depth + 1) a here
      evalByParts rounds (depth + 1) b here
    | e => step rounds (evalByParts rounds (depth + 1)) (evalByParts rounds depth) e here
  | _, _, _ => fail .limit

namespace Expr

/-- The leaves of a sequence are anchored. -/
def anchorsLeaves : Expr → Bool
  | seq a b pos => (seq a b pos).leaves.all isAnchored
  | _ => true

/-- The same tree, in which sequences have anchored leaves if `P` is the case. -/
def Grounded (P : Prop) (a b : Expr) : Prop :=
  a = b ∧ a.All (fun n => P → n.anchorsLeaves = true) fun _ => True

end Expr

theorem evalByParts_of_lt {rounds depth : Nat} (h : depth < 4) (e : Expr) (f : FrameId) :
    evalByParts rounds depth e f = fail .limit := by
  match depth, h with
  | 0, _ | 1, _ | 2, _ | 3, _ => rfl

theorem evalByParts_leaf {e : Expr} (h : e.leaves = [e]) (rounds depth : Nat) (f : FrameId) :
    evalByParts rounds (depth + 4) e f =
      locate e (step rounds (evalByParts rounds (depth + 1)) (evalByParts rounds depth) e f) := by
  cases e with
  | seq a b pos => exact absurd h (Expr.leaves_seq_ne_singleton a b _ pos)
  | _ => rfl

theorem evalByParts_seq (rounds depth : Nat) (a b : Expr) (pos : Option Pos) (f : FrameId) :
    evalByParts rounds (depth + 4) (.seq a b pos) f = locate (.seq a b pos) (do
      let _ ← evalByParts rounds (depth + 1) a f
      evalByParts rounds (depth + 1) b f) := rfl

theorem places_evalByParts {e : Expr} (h : ∀ s ∈ e.leaves, s.isAnchored = true) (rounds depth : Nat)
    (f : FrameId) : Places (evalByParts rounds depth e f) := by
  induction depth using depth_induction generalizing e with
  | short depth hd =>
    rw [evalByParts_of_lt hd]
    exact places_limit
  | node depth _ ih =>
    rcases e.leaf_or_seq with hleaf | ⟨a, b, pos, rfl⟩
    · rw [evalByParts_leaf hleaf]
      exact Expr.places_step (h e (by simp [hleaf])) rounds _ _ f
    · rw [Expr.leaves_seq, List.forall_mem_append] at h
      have hparts := (ih h.1).bind fun _ => ih h.2
      rw [evalByParts_seq, hparts.locate_eq]
      exact hparts

namespace Eval

variable {P : Prop} {m : Eval Value} {n n' : Nat → Eval Value}

/-- The computations work on the same worlds, and give errors the same places if `P` is the case. -/
abbrev FollowsIf (P : Prop) (m : Eval Value) (n : Nat → Eval Value) : Prop :=
  Follows (Expr.Grounded P) (fun p q => P → p = q) (Value.Parallel (Expr.Grounded P)) m n

theorem Answers.congr {V : Value → Value → Prop} {x y z : Except Fault Value}
    (h : Answers (fun p q => P → p = q) V x y) (hbare : bareWith id y = bareWith id z)
    (heq : P → y = z) : Answers (fun p q => P → p = q) V x z := by
  cases h with
  | ok hv =>
    cases z with
    | ok u =>
      obtain rfl := Except.ok.inj hbare
      exact .ok hv
    | error fault => cases hbare
  | @error c p q hpq =>
    cases z with
    | ok u => cases hbare
    | error fault =>
      cases fault with
      | limit => cases hbare
      | error c' q' =>
        cases hbare
        refine .error fun hP => (hpq hP).trans ?_
        exact (Fault.error.inj (Except.error.inj (heq hP))).2

/-- What is followed may be exchanged for what is the same but for places. -/
theorem Follows.congr (h : FollowsIf P m n) (hagrees : ∀ k, Agrees (n k) (n' k))
    (heq : P → ∀ k, n k = n' k)
    (hstable : ∀ t k, (n' k t).1 ≠ .error .limit → (∀ j, k ≤ j → n j t = n k t) →
      ∀ j, k ≤ j → n' j t = n' k t) : FollowsIf P m n' := by
  intro w t hw hne
  obtain ⟨k, r, hk, hans, hpar⟩ := h w t hw hne
  obtain rfl := hk k (Nat.le_refl k)
  obtain ⟨hbare, hworld⟩ := hagrees k t
  have hans' := hans.congr hbare fun hP => congrArg (fun n => (n t).1) (heq hP k)
  refine ⟨k, n' k t, hstable t k ?_ hk, hans', hworld ▸ hpar⟩
  intro hlimit
  rw [hlimit] at hans'
  generalize (m w).1 = x at hans'
  cases hans'

theorem Follows.locate_right (h : FollowsIf P m n) (hplaces : P → ∀ k, Places (n k)) (e : Expr) :
    FollowsIf P m fun k => Eval.locate e (n k) := by
  refine h.congr (fun k => (agrees_locate e (n k)).symm)
    (fun hP k => ((hplaces hP k).locate_eq e).symm) fun t k _ hk j hj => ?_
  rw [locate_apply, locate_apply, hk j hj]

theorem Follows.locate_both (h : FollowsIf P m n) (e : Expr) :
    FollowsIf P (Eval.locate e m) fun k => Eval.locate e (n k) :=
  h.locate e e fun p q hpq hP => by rw [hpq hP]

/-- What a tree follows its leaves follow, since the tree itself can only have placed an error. -/
theorem Follows.leaves {rounds : Nat} {e : Expr} {f : FrameId}
    (h : FollowsIf P m fun k => eval rounds k e f)
    (hanchored : P → ∀ s ∈ e.leaves, s.isAnchored = true) (last : Value) :
    FollowsIf P m fun k => runAll (fun s => eval rounds k s f) last e.leaves := by
  rcases e.leaf_or_seq with hleaf | ⟨a, b, pos, rfl⟩
  · simpa only [hleaf, runAll_singleton] using h
  · simp only [runAll_leaves _ _ last .null]
    apply Follows.of_add 1
    refine (h.add 4).congr (fun k => agrees_locate _ _) (fun hP k => ?_) fun t k hne _ j hj => ?_
    · rw [eval_seq, (Expr.places_leaves (hanchored hP) rounds (k + 1) f .null).locate_eq]
    · exact extends_runAll (fun s => eval_extends (Nat.le_refl rounds) (by omega) s f) _ _ t hne

end Eval

section Followed

variable {P : Prop} {e : Expr}

/-- Anchored leaves of a sequence are those of its parts. -/
theorem Expr.Grounded.anchored {a b : Expr} {pos : Option Pos}
    (h : (Expr.seq a b pos).Grounded P (.seq a b pos)) :
    (P → ∀ s ∈ a.leaves, s.isAnchored = true) ∧ (P → ∀ s ∈ b.leaves, s.isAnchored = true) := by
  have hleaves (hP : P) : ∀ s ∈ a.leaves ++ b.leaves, s.isAnchored = true := by
    have hall := h.2.1 hP
    rwa [Expr.anchorsLeaves, Expr.leaves_seq, List.all_eq_true] at hall
  exact ⟨fun hP s hs => hleaves hP s (List.mem_append_left _ hs),
    fun hP s hs => hleaves hP s (List.mem_append_right _ hs)⟩

theorem Expr.Grounded.parallel (h : e.Grounded P e) : e.Parallel (Expr.Grounded P) e :=
  (Expr.Parallel.refl (fun _ => rfl) e).imp_all (fun _ _ hab ha => ⟨hab, ha⟩) h.2

theorem Expr.Grounded.leaves (h : e.Grounded P e) :
    List.Forall₂ (Expr.Grounded P) e.leaves e.leaves :=
  List.forall₂_same.2 fun s hs => ⟨rfl, h.2.leaves s hs⟩

theorem Expr.Grounded.follows_step {run inner : Expr → FrameId → Eval Value}
    {run' inner' : Nat → Expr → FrameId → Eval Value} (h : e.Grounded P e)
    (hrun : ∀ (a : Expr) (f : FrameId), a.Grounded P a → FollowsIf P (run a f) fun k => run' k a f)
    (hinner : ∀ (a : Expr) (f : FrameId), a.Grounded P a →
      FollowsIf P (inner a f) fun k => inner' k a f) (rounds : Nat) (f : FrameId) :
    FollowsIf P (locate e (step rounds run inner e f)) fun k =>
      locate e (step rounds (run' k) (inner' k) e f) := by
  refine Follows.locate_both ?_ e
  refine Featherweight.follows_step (fun _ => rfl) ?_ ?_ h.parallel h.leaves rounds f
  · rintro a _ f ⟨rfl, ha⟩
    exact hrun a f ⟨rfl, ha⟩
  · rintro a _ f ⟨rfl, ha⟩
    exact hinner a f ⟨rfl, ha⟩

/-- The evaluator follows the evaluation by parts. -/
theorem evalByParts_followed (rounds depth : Nat) (h : e.Grounded P e) (f : FrameId) :
    FollowsIf P (evalByParts rounds depth e f) fun k => eval rounds k e f := by
  induction depth using depth_induction generalizing e f with
  | short depth hd =>
    rw [evalByParts_of_lt hd]
    exact follows_limit _
  | node depth inner ih =>
    apply Follows.of_add 4
    rcases e.leaf_or_seq with hleaf | ⟨a, b, pos, rfl⟩
    · rw [evalByParts_leaf hleaf]
      simp only [eval_node]
      exact h.follows_step (fun a f ha => (ih ha f).add 1) (fun a f ha => inner ha f) rounds f
    · obtain ⟨ha, hb⟩ := h.anchored
      simp only [evalByParts_seq, eval_seq, Expr.leaves_seq, runAll_append]
      have hfirst := ((ih ⟨rfl, h.2.2.1⟩ f).leaves ha .null).add 1
      have hsecond (v : Value) := ((ih ⟨rfl, h.2.2.2⟩ f).leaves hb v).add 1
      exact (hfirst.bind fun _ v _ => hsecond v).locate_both _

/-- The parts of a tree follow its leaves, if this is so for each leaf. -/
theorem follows_parts {e : Expr} {rounds depth : Nat} {f : FrameId}
    (hrun : ∀ s : Expr, s.Grounded P s →
      FollowsIf P (eval rounds depth s f) fun k => evalByParts rounds k s f)
    (h : e.Grounded P e) (last : Value) :
    FollowsIf P (runAll (fun s => eval rounds depth s f) last e.leaves) fun k =>
      evalByParts rounds k e f := by
  rcases e.leaf_or_seq with hleaf | ⟨a, b, pos, rfl⟩
  · simpa only [hleaf, runAll_singleton] using hrun e h
  · obtain ⟨ha, hb⟩ := h.anchored
    apply Follows.of_add 4
    simp only [evalByParts_seq, Expr.leaves_seq, runAll_append]
    have hfirst := (follows_parts hrun ⟨rfl, h.2.2.1⟩ last).add 1
    have hsecond (v : Value) := (follows_parts hrun ⟨rfl, h.2.2.2⟩ v).add 1
    -- The sequence places errors that are left without a place; anchored leaves leave none.
    refine (hfirst.bind fun v _ _ => hsecond v).locate_right (fun hP k => ?_) _
    have hplaces := places_evalByParts (ha hP) rounds (k + 1) f
    exact hplaces.bind fun _ => places_evalByParts (hb hP) rounds (k + 1) f
termination_by e

/-- The evaluation by parts follows the evaluator. -/
theorem eval_followed (rounds depth : Nat) (h : e.Grounded P e) (f : FrameId) :
    FollowsIf P (eval rounds depth e f) fun k => evalByParts rounds k e f := by
  induction depth using depth_induction generalizing e f with
  | short depth hd =>
    rw [eval_of_lt hd]
    exact follows_limit _
  | node depth inner ih =>
    apply Follows.of_add 4
    rcases e.leaf_or_seq with hleaf | ⟨a, b, pos, rfl⟩
    · simp only [evalByParts_leaf hleaf]
      rw [eval_node]
      exact h.follows_step (fun a f ha => (ih ha f).add 1) (fun a f ha => inner ha f) rounds f
    · simp only [evalByParts_seq, eval_seq, Expr.leaves_seq, runAll_append]
      have hrun (s : Expr) (hs : s.Grounded P s) := ih hs f
      have hfirst := (follows_parts hrun ⟨rfl, h.2.2.1⟩ .null).add 1
      have hsecond (v : Value) := (follows_parts hrun ⟨rfl, h.2.2.2⟩ v).add 1
      exact (hfirst.bind fun v _ _ => hsecond v).locate_both _

end Followed

/-- `p` holds of all nodes of the code in the frames. -/
def World.AllCode (p : Expr → Prop) (w : World) : Prop :=
  ∀ (f : FrameId) (a : Frame) (x : String) (v : Value),
    w.store[f]? = some a → (x, v) ∈ a.vars → v.All p fun _ => True

theorem World.AllCode.parallel {P : Prop} {w : World}
    (h : w.AllCode fun n => P → n.anchorsLeaves = true) : w.Parallel (Expr.Grounded P) w := by
  refine World.parallel_self fun f a x v ha hx => ?_
  have hsame : v.Parallel Eq v := .refl (fun _ => rfl) v
  exact hsame.imp_all (fun _ _ hab ha => ⟨hab, ha⟩) (h f a x v ha hx)

theorem Eval.Answers.same {P : Prop} {r s : Except Fault Value}
    (h : Answers (fun p q => P → p = q) (Value.Parallel (Expr.Grounded P)) r s) :
    bareWith id r = bareWith id s ∧ (P → r = s) := by
  cases h with
  | ok hv =>
    rw [hv.eq fun _ _ hab => hab.1]
    exact ⟨rfl, fun _ => rfl⟩
  | error hpq => exact ⟨rfl, fun hP => by rw [hpq hP]⟩

theorem eval_same_evalByParts {P : Prop} {e : Expr} {w : World} {rounds depth depth' : Nat}
    {f : FrameId} (he : e.Grounded P e) (hw : w.AllCode fun n => P → n.anchorsLeaves = true)
    (hne : (eval rounds depth e f w).1 ≠ .error .limit)
    (hne' : (evalByParts rounds depth' e f w).1 ≠ .error .limit) :
    SameButPlace (eval rounds depth e f w) (evalByParts rounds depth' e f w) ∧
      (P → eval rounds depth e f w = evalByParts rounds depth' e f w) := by
  obtain ⟨hanswers, hparallel⟩ :=
    (evalByParts_followed rounds depth' he f).agree hw.parallel hne' hne
  have hworld := hparallel.eq fun _ _ hab => hab.1
  obtain ⟨hbare, heq⟩ := hanswers.same
  exact ⟨⟨hbare.symm, hworld.symm⟩, fun hP => Prod.ext (heq hP).symm hworld.symm⟩

/-! ## The law -/

/-- Trees with the same leaves are evaluated alike, however the leaves are grouped into sequences:
with the same result, but for the place of an error, and to the same world. The place is the same
too if all leaves but literals have a position with a known line, or if the trees have the same
position. A block in a list of statements is such a group. In the same sense it makes no difference
to evaluate a sequence by parts, down to its leaves or, limits aside, throughout. -/
theorem sequences_regrouped (rounds : Nat) (f : FrameId) (w : World) :
    (∀ depth e e', e.leaves = e'.leaves →
      SameButPlace (eval rounds depth e f w) (eval rounds depth e' f w) ∧
      ((∀ s ∈ e.leaves, s.isAnchored = true) ∨ e.pos? = e'.pos? →
        eval rounds depth e f w = eval rounds depth e' f w)) ∧
    (∀ before block after pos pos', block ≠ [] →
      (Expr.sequence (before ++ .sequence block pos :: after) pos').leaves =
        (Expr.sequence (before ++ block ++ after) pos').leaves) ∧
    (∀ depth a b pos,
      SameButPlace (eval rounds (depth + 4) (.seq a b pos) f w)
        (byParts (fun s => eval rounds (depth + 1) s f) (.seq a b pos) w) ∧
      ((∀ s ∈ (Expr.seq a b pos).leaves, s.isAnchored = true) →
        eval rounds (depth + 4) (.seq a b pos) f w =
          byParts (fun s => eval rounds (depth + 1) s f) (.seq a b pos) w)) ∧
    ∀ e,
      ((∃ depth, (eval rounds depth e f w).1 ≠ .error .limit) ↔
        ∃ depth, (evalByParts rounds depth e f w).1 ≠ .error .limit) ∧
      ∀ depth depth', (eval rounds depth e f w).1 ≠ .error .limit →
        (evalByParts rounds depth' e f w).1 ≠ .error .limit →
        SameButPlace (eval rounds depth e f w) (evalByParts rounds depth' e f w) ∧
        ((e.All (fun n => n.anchorsLeaves = true) fun _ => True) →
          (w.AllCode fun n => n.anchorsLeaves = true) →
          eval rounds depth e f w = evalByParts rounds depth' e f w) := by
  refine ⟨fun depth e e' h => ?_, fun before block after pos pos' h => ?_,
    fun depth a b pos => ?_, fun e => ?_⟩
  · exact ⟨eval_agrees_of_leaves_eq h rounds depth f w,
      fun hplace => congrFun (eval_eq_of_leaves_eq h rounds depth f hplace) w⟩
  · exact Expr.leaves_spliced h before after pos pos'
  · exact ⟨eval_agrees_byParts rounds depth f w,
      fun hanchored => congrFun (eval_eq_byParts rounds depth f hanchored) w⟩
  · have he : e.Grounded False e :=
      ⟨rfl, e.all_iff.2 ⟨fun _ _ => False.elim, fun _ _ => trivial⟩⟩
    have hw : w.AllCode fun n => False → n.anchorsLeaves = true :=
      fun _ _ _ v _ _ => v.all_iff.2 ⟨fun _ _ => False.elim, fun _ _ => trivial⟩
    refine ⟨⟨?_, ?_⟩, fun depth depth' hne hne' => ⟨?_, fun he hw => ?_⟩⟩
    · rintro ⟨depth, hne⟩
      exact (eval_followed rounds depth he f).ne_limit hw.parallel hne
    · rintro ⟨depth, hne⟩
      exact (evalByParts_followed rounds depth he f).ne_limit hw.parallel hne
    · exact (eval_same_evalByParts he hw hne hne').1
    · have he : e.Grounded True e := ⟨rfl, he.mono (fun _ hn _ => hn) fun _ _ => trivial⟩
      have hw : w.AllCode fun n => True → n.anchorsLeaves = true :=
        fun f a x v ha hx => (hw f a x v ha hx).mono (fun _ hn _ => hn) fun _ _ => trivial
      exact (eval_same_evalByParts he hw hne hne').2 trivial

/-- `g` prints and then divides by zero, which are grouped with an empty statement. -/
def failingWorld : World :=
  let quotient : Expr :=
    .binary .div (.literal (.int 1) none) (.literal (.int 0) none) (some ⟨some 3, none, none, none⟩)
  let body : Expr := .seq (.print (.literal (.int 5) none) (some ⟨some 1, none, none, none⟩))
    (.seq (.literal .null none) quotient (some ⟨some 6, none, none, none⟩)) none
  ⟨#[⟨none, [("g", .closure [] body 0 0)], none, none, 1⟩], []⟩

def callOfG : Expr := .call (.var "g" none) [] (some ⟨some 2, none, none, none⟩)

/-- A call of `g` between two literals, in two groupings at different lines. -/
def leftGrouping : Expr :=
  .seq (.seq (.literal .null none) callOfG (some ⟨some 7, none, none, none⟩)) (.literal .null none)
    (some ⟨some 8, none, none, none⟩)

def rightGrouping : Expr :=
  .seq (.literal .null none) (.seq callOfG (.literal .null none) none)
    (some ⟨some 9, none, none, none⟩)

theorem sequences_regrouped_call :
    leftGrouping.leaves = rightGrouping.leaves ∧ leftGrouping.pos? ≠ rightGrouping.pos? ∧
    (eval 0 20 leftGrouping 0 failingWorld).1 =
      .error (.error (.divisionByZero .div) (some ⟨some 3, none, none, none⟩)) ∧
    eval 0 20 leftGrouping 0 failingWorld = eval 0 20 rightGrouping 0 failingWorld ∧
    eval 0 20 leftGrouping 0 failingWorld =
      byParts (fun s => eval 0 17 s 0) leftGrouping failingWorld ∧
    eval 0 20 leftGrouping 0 failingWorld = evalByParts 0 25 leftGrouping 0 failingWorld := by
  obtain ⟨hgroups, -, hparts, hall⟩ := sequences_regrouped 0 0 failingWorld
  have hleaves : leftGrouping.leaves = rightGrouping.leaves := rfl
  have hanchored : ∀ s ∈ leftGrouping.leaves, s.isAnchored = true := by
    rw [← List.all_eq_true]
    rfl
  refine ⟨hleaves, by decide, rfl, (hgroups 20 _ _ hleaves).2 (.inl hanchored),
    (hparts 16 _ _ _).2 hanchored, ?_⟩
  refine ((hall leftGrouping).2 20 25 ?_ ?_).2 ?_ ?_
  · intro h
    cases h
  · intro h
    cases h
  · exact ⟨rfl, ⟨rfl, ⟨rfl, trivial⟩, rfl, rfl, trivial⟩, rfl, trivial⟩
  · intro f a x v ha hx
    cases f with
    | zero =>
      cases ha
      obtain ⟨rfl, rfl⟩ := Prod.mk.inj (List.mem_singleton.1 hx)
      exact ⟨trivial, rfl, ⟨rfl, rfl, trivial⟩, rfl, ⟨rfl, trivial⟩,
        rfl, ⟨rfl, trivial⟩, rfl, trivial⟩
    | succ f => cases ha

end Featherweight
