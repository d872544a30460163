import Featherweight.Proofs.Blame
import Featherweight.Proofs.Frames
import Featherweight.Proofs.Names

/-!
# Featherweight.Proofs.WellFormed

Stores in which every search along the frames comes to an end.

* `Store.WellFormed` : frames lie in older ones, closures capture frames that are there, and a frame
  binds a name once.
* `Store.Walk s f fs` : going outwards from `f`, from parent to parent, one meets `fs` and then the
  end.
* `World.Reaches` : what an embedding program can make of a world, and what evaluations pass through.
* `eval_wellFormed` : evaluations keep a store well formed and lose nothing of it, and in every world
  that is reached `Store.chain`, which all searches follow, is a walk that ends.
-/

namespace Featherweight

namespace Store

/-- Each frame binds each name once. -/
def Distinct (s : Store) : Prop := ∀ (f : FrameId) (a : Frame), s[f]? = some a → a.names.Nodup

structure WellFormed (s : Store) : Prop where
  anchored : s.Anchored
  distinct : s.Distinct

inductive Walk (s : Store) : FrameId → List FrameId → Prop where
  | root {f : FrameId} {a : Frame} : s[f]? = some a → a.parent = none → Walk s f [f]
  | outwards {f p : FrameId} {a : Frame} {fs : List FrameId} :
      s[f]? = some a → a.parent = some p → Walk s p fs → Walk s f (f :: fs)

/-- Every frame lies in an older one, if in any. -/
def Ordered (s : Store) : Prop :=
  ∀ (f : FrameId) (a : Frame) (p : FrameId), s[f]? = some a → a.parent = some p → p < f

variable {s : Store} {f : FrameId}

/-- Parents are older, so the bound of the chain is never what ends it. -/
theorem Ordered.walk_chain (h : s.Ordered) (hf : f < s.size) : s.Walk f (s.chain f) := by
  have hwalk (n : Nat) (f : FrameId) (hn : f < n) (hf : f < s.size) : s.Walk f (s.chainFrom n f) := by
    induction n generalizing f with
    | zero => exact absurd hn (Nat.not_lt_zero f)
    | succ n ih =>
      have ha : s[f]? = some s[f] := Array.getElem?_eq_getElem hf
      rw [chainFrom, ha]
      dsimp only
      cases hp : s[f].parent with
      | none => exact .root ha hp
      | some p =>
        have hlt : p < f := h f _ p ha hp
        have hpn : p < n := Nat.lt_of_lt_of_le hlt (Nat.lt_succ_iff.1 hn)
        exact .outwards ha hp (ih p hpn (Nat.lt_trans hlt hf))
  exact hwalk (f + 1) f (Nat.lt_succ_self f) hf

theorem Anchored.ordered (h : s.Anchored) : s.Ordered := fun _ _ _ => h.parent

theorem Anchored.walk_chain (h : s.Anchored) (hf : f < s.size) : s.Walk f (s.chain f) :=
  h.ordered.walk_chain hf

section Push

variable {parent : Option FrameId} {sink : Option SinkId} {source : Option String}

theorem push_cases {i : FrameId} {b : Frame} (h : (s.push (.fresh parent sink source))[i]? = some b) :
    (i = s.size ∧ b = .fresh parent sink source) ∨ s[i]? = some b := by
  rw [Array.getElem?_push] at h
  split at h
  · rename_i heq
    exact .inl ⟨heq, (Option.some.inj h).symm⟩
  · exact .inr h

theorem Anchored.push (h : s.Anchored) (hp : ∀ p, parent = some p → p < s.size) :
    Anchored (s.push (.fresh parent sink source)) := by
  refine ⟨fun hb hparent => ?_, fun {i b x v g} hb hv hg => ?_⟩
  · rcases push_cases hb with ⟨rfl, rfl⟩ | hb
    · exact hp _ hparent
    · exact h.parent hb hparent
  · rcases push_cases hb with ⟨rfl, rfl⟩ | hb
    · cases hv
    · rw [Array.size_push]
      exact Nat.lt_succ_of_lt (h.captured hb hv hg)

theorem Distinct.push (h : s.Distinct) : Distinct (s.push (.fresh parent sink source)) := by
  intro i b hb
  rcases push_cases hb with ⟨rfl, rfl⟩ | hb
  · exact List.nodup_nil
  · exact h i b hb

end Push

theorem Distinct.modify (h : s.Distinct) (f : FrameId) {k : Frame → Frame}
    (hk : ∀ a : Frame, a.names.Nodup → (k a).names.Nodup) : Distinct (s.modify f k) := by
  intro i b hb
  rw [Array.getElem?_modify] at hb
  split at hb
  · obtain ⟨a, ha, rfl⟩ := Option.map_eq_some_iff.1 hb
    exact hk a (h i a ha)
  · exact h i b hb

end Store

theorem Frame.nodup_set {a : Frame} (h : a.names.Nodup) (x : String) (v : Value) :
    (a.set x v).names.Nodup := by
  rw [names_set]
  split
  · exact h
  · rename_i hx
    refine List.nodup_append.2 ⟨h, by simp, fun y hy z hz => ?_⟩
    rintro rfl
    exact hx (List.mem_singleton.1 hz ▸ hy)

theorem World.Steps.distinct {w w' : World} (h : w.Steps w') (hw : w.store.Distinct) :
    w'.store.Distinct := by
  induction h with
  | refl => exact hw
  | tail _ hs ih =>
    cases hs with
    | set f x v => exact ih.modify f fun _ ha => Frame.nodup_set ha x v
    | emit => exact ih
    | count f n => exact ih.modify f fun _ ha => ha
    | push parent => exact ih.push

/-- Anchored stores obey the discipline of using frames that are there, whatever is assigned. -/
theorem Discipline.obeyed_iff_anchored {s : Store} :
    (Discipline.assigning fun _ => True).Obeyed s ↔ s.Anchored := by
  constructor
  · intro h
    have hlt {i : FrameId} {a : Frame} (ha : s[i]? = some a) : i < s.size :=
      (Array.getElem?_eq_some_iff.1 ha).1
    refine ⟨fun ha hp => h.parent ha (hlt ha) hp, fun ha hv hg => ?_⟩
    exact (ofFrames_admits.1 (h.binding ha (hlt ha) hv)).2 _ hg
  · intro h
    exact assigning_obeyed h fun _ _ => trivial

/-! ## The worlds of an evaluation -/

namespace Eval

theorem Stepwise.steps {α : Type} {m : Eval α} (h : Stepwise m) {w w' : World} {r : Except Fault α}
    (hr : m w = (r, w')) : w.Steps w' := by
  have hm := h w
  rw [hr] at hm
  exact hm

theorem GoesRound.steps {test body : Eval Value} {k : Nat} {w w' : World} (ht : Stepwise test)
    (hb : Stepwise body) (h : GoesRound test body k w w') : w.Steps w' := by
  induction h with
  | zero => exact .refl
  | succ htest hbody _ ih => exact ((ht.steps htest).trans (hb.steps hbody)).trans ih

end Eval

namespace Evaluation

open Eval

variable {rounds : Nat} {ev sub : Evaluation} {u : World}

/-- What was done before an evaluation starts another was done step by step. -/
theorem Starts.steps (h : ev.Starts rounds sub) : ev.world.Steps sub.world := by
  have heval (d : Nat) (e : Expr) (f : FrameId) : Stepwise (eval rounds d e f) :=
    eval_stepwise rounds d e f
  cases h with
  | print => exact .refl
  | left => exact .refl
  | test => exact .refl
  | init => exact .refl
  | value => exact .refl
  | callee => exact .refl
  | right hx => exact (heval _ _ _).steps hx
  | yes ht => exact (heval _ _ _).steps ht
  | no ht => exact (heval _ _ _).steps ht
  | loopTest _ hround => exact hround.steps (heval _ _ _) (heval _ _ _)
  | loopBody _ hround ht =>
    exact (hround.steps (heval _ _ _) (heval _ _ _)).trans ((heval _ _ _).steps ht)
  | stmt _ hbefore => exact (stepwise_runAll (fun s => heval _ s _) _ _).steps hbefore
  | arg hcallee hbefore =>
    have hargs := (stepwise_evalArgs (fun a => heval _ a _) _).steps hbefore
    exact ((heval _ _ _).steps hcallee).trans hargs
  | @body d callee args pos f g w w₁ w₂ w₃ params body i vs hcallee hargs _ hbind =>
    have hvs := ((heval _ _ _).steps hcallee).trans
      ((stepwise_evalArgs (fun a => heval _ a _) _).steps hargs)
    exact (hvs.tail (.push w₂ g)).trans ((stepwise_bindParams _ _ _).steps hbind)

/-- The evaluation, or one that it leads to, starts or ends in the world `u`. -/
def Passes (rounds : Nat) (ev : Evaluation) (u : World) : Prop :=
  ∃ sub, Relation.ReflTransGen (Starts rounds) ev sub ∧
    (u = sub.world ∨ u = (eval rounds sub.depth sub.tree sub.frame sub.world).2)

theorem passes_end (rounds : Nat) (ev : Evaluation) :
    ev.Passes rounds (eval rounds ev.depth ev.tree ev.frame ev.world).2 :=
  ⟨ev, .refl, .inr rfl⟩

theorem Passes.steps (h : ev.Passes rounds u) : ev.world.Steps u := by
  obtain ⟨sub, hsub, hu⟩ := h
  have hsteps : ev.world.Steps sub.world := by
    clear hu
    induction hsub with
    | refl => exact .refl
    | tail _ hs ih => exact ih.trans hs.steps
  rcases hu with rfl | rfl
  · exact hsteps
  · exact hsteps.trans (eval_stepwise ..)

theorem Passes.anchored (h : ev.Passes rounds u) (hs : ev.world.store.Anchored)
    (hf : ev.frame < ev.world.store.size)
    (he : ∀ g, ev.tree.Captures g → g < ev.world.store.size) : u.store.Anchored := by
  obtain ⟨sub, hsub, hu⟩ := h
  have hobeys : ev.Obeys (.assigning fun _ => True) := by
    refine ⟨Discipline.obeyed_iff_anchored.2 hs, ?_, hf⟩
    exact Discipline.ofFrames_code.2 ⟨fun _ _ _ _ _ _ => trivial, he⟩
  have hsub' := hobeys.reach hsub
  rcases hu with rfl | rfl
  · exact Discipline.obeyed_iff_anchored.1 hsub'.store
  · have hkeeps := eval_keeps rounds sub.depth hsub'.code hsub'.frame _ hsub'.store (Nat.le_refl _)
    exact Discipline.obeyed_iff_anchored.1 hkeeps.1.obeyed

theorem Passes.wellFormed (h : ev.Passes rounds u) (hs : ev.world.store.WellFormed)
    (hf : ev.frame < ev.world.store.size)
    (he : ∀ g, ev.tree.Captures g → g < ev.world.store.size) : u.store.WellFormed :=
  ⟨h.anchored hs.anchored hf he, h.steps.distinct hs.distinct⟩

end Evaluation

/-! ## The worlds of an embedding program -/

inductive World.Reaches (w : World) : World → Prop where
  | start : Reaches w w
  | opened {u : World} {parent : Option FrameId} (sink : Option SinkId) (source : Option String) :
      Reaches w u → (∀ p, parent = some p → p < u.store.size) →
      Reaches w (u.push (.fresh parent sink source)).2
  | equipped {u : World} (f : FrameId) (sink : Option SinkId) (source : Option String) :
      Reaches w u → Reaches w (Session.equip f sink source u)
  -- An evaluation may be looked at while it goes on.
  | passed {u u' : World} {rounds depth : Nat} {e : Expr} {f : FrameId} :
      Reaches w u → f < u.store.size → (∀ g, e.Captures g → g < u.store.size) →
      Evaluation.Passes rounds ⟨depth, e, f, u⟩ u' → Reaches w u'

theorem World.Reaches.trans {w u u' : World} (h : w.Reaches u) (h' : u.Reaches u') :
    w.Reaches u' := by
  induction h' with
  | start => exact h
  | opened sink source _ hp ih => exact .opened sink source ih hp
  | equipped f sink source _ ih => exact .equipped f sink source ih
  | passed _ hf he hpass ih => exact .passed ih hf he hpass

namespace Session

variable {f : FrameId} {w : World}

theorem equip_wellFormed (h : w.store.WellFormed) (sink : Option SinkId) (source : Option String) :
    (equip f sink source w).store.WellFormed := by
  have hobeyed : (Discipline.assigning fun _ => True).Obeyed (equip f sink source w).store := by
    unfold equip
    dsimp only
    exact (Discipline.obeyed_iff_anchored.2 h.anchored).modify (fun _ => rfl) fun _ _ _ hu => .inr hu
  exact ⟨Discipline.obeyed_iff_anchored.1 hobeyed, h.distinct.modify f fun _ ha => ha⟩

/-- A program text has no closures in its literals. -/
theorem not_captures_of_parse {text : String} {e : Expr} (h : parse text = .ok e) (g : FrameId) :
    ¬ e.Captures g := by
  rintro ⟨params, body, i, hmem⟩
  exact ((Expr.all_iff e).1 (parse_plain h)).2 _ hmem

theorem evalParsed_world {e : Expr} (f : FrameId) (sink : Option SinkId) (source : String)
    (w : World) :
    (evalParsed (.ok e) f sink source w).2 =
      (eval maxRounds maxDepth e f (equip f sink (some source) w)).2 := by
  rw [evalParsed, evalProgram, evalIn]
  generalize eval maxRounds maxDepth e f (equip f sink (some source) w) = result
  obtain ⟨r, w'⟩ := result
  cases r with
  | ok v => rfl
  | error fault => cases fault <;> rfl

theorem evalParsed_reaches {parsed : Except ParseError Expr}
    (hparse : ∀ e, parsed = .ok e → ∃ text, parse text = .ok e) (hf : f < w.store.size)
    (sink : Option SinkId) (source : String) :
    w.Reaches (evalParsed parsed f sink source w).2 ∧
      f < (evalParsed parsed f sink source w).2.store.size := by
  cases parsed with
  | error err => exact ⟨.start, hf⟩
  | ok e =>
    obtain ⟨text, htext⟩ := hparse e rfl
    have hsize : (equip f sink (some source) w).store.size = w.store.size := Array.size_modify ..
    have hf' : f < (equip f sink (some source) w).store.size := hsize ▸ hf
    have hpass := Evaluation.passes_end maxRounds ⟨maxDepth, e, f, equip f sink (some source) w⟩
    rw [evalParsed_world]
    refine ⟨.passed (.equipped f sink (some source) .start) hf' ?_ hpass, ?_⟩
    · exact fun g hg => absurd hg (not_captures_of_parse htext g)
    · obtain ⟨b, hb, -⟩ := hpass.steps.grows f _ (Array.getElem?_eq_getElem hf')
      exact (Array.getElem?_eq_some_iff.1 hb).1

theorem serve_reaches (hf : f < w.store.size) (r : Request) :
    w.Reaches (serve f r w).2 ∧ f < (serve f r w).2.store.size := by
  cases r with
  | run text sink => exact evalParsed_reaches (fun _ he => ⟨text, he⟩) hf sink text
  | enter text sink =>
    have hsize : (equip f sink none w).store.size = w.store.size := Array.size_modify ..
    obtain ⟨hreach, hf'⟩ := evalParsed_reaches (w := equip f sink none w)
      (fun _ he => parse_of_parseEntry he) (hsize ▸ hf) none text
    exact ⟨(World.Reaches.equipped f sink none .start).trans hreach, hf'⟩

/-- Between two requests of a session the world is one that an embedding program can reach. -/
theorem serveAll_reaches (hf : f < w.store.size) (rs : List Request) :
    w.Reaches (serveAll f rs w).2 := by
  induction rs generalizing w with
  | nil => exact .start
  | cons r rs ih =>
    obtain ⟨hreach, hf'⟩ := serve_reaches hf r
    exact hreach.trans (ih hf')

end Session

theorem World.Reaches.wellFormed {w u : World} (h : w.Reaches u) (hs : w.store.WellFormed) :
    u.store.WellFormed := by
  induction h with
  | start => exact hs
  | opened sink source _ hp ih => exact ⟨ih.anchored.push hp, ih.distinct.push⟩
  | equipped f sink source _ ih => exact Session.equip_wellFormed ih sink source
  | passed _ hf he hpass ih => exact hpass.wellFormed ih hf he

/-- Whatever an evaluation in a well-formed store comes to, the store it leaves is well formed, and
each frame that was there is still there with its parent, its sink, its text and its names, new names
coming after the old ones. In every world that an embedding program can reach from there, between the
requests of a session or in the midst of an evaluation, each chain of frames comes to its end. -/
theorem eval_wellFormed (rounds depth : Nat) (e : Expr) (f : FrameId) (w : World)
    (hs : w.store.WellFormed) (hf : f < w.store.size)
    (he : ∀ g, e.Captures g → g < w.store.size) :
    (eval rounds depth e f w).2.store.WellFormed ∧
    w.store.Grows (eval rounds depth e f w).2.store ∧
    (∀ requests, w.Reaches (Session.serveAll f requests w).2) ∧
    ∀ u, w.Reaches u → ∀ g < u.store.size, u.store.Walk g (u.store.chain g) := by
  have hpass := Evaluation.passes_end rounds ⟨depth, e, f, w⟩
  refine ⟨hpass.wellFormed hs hf he, hpass.steps.grows, Session.serveAll_reaches hf, ?_⟩
  intro u hu g hg
  exact (hu.wellFormed hs).anchored.walk_chain hg

theorem nestedWorld_wellFormed : nestedWorld.store.WellFormed where
  anchored := nestedWorld_anchored
  distinct f a ha := by
    match f with
    | 0 => cases ha; decide
    | 1 => cases ha; decide

/-- The evaluation fails in its last call, after it has made three frames. -/
theorem eval_wellFormed_nested :
    (nestedWorld.store.WellFormed ∧ 1 < nestedWorld.store.size ∧
      ∀ g, nestedCalls.Captures g → g < nestedWorld.store.size) ∧
    (eval 1 40 nestedCalls 1 nestedWorld).1.toOption.isNone ∧
    (eval 1 40 nestedCalls 1 nestedWorld).2.store.chain 4 = [4, 1, 0] ∧
    (eval 1 40 nestedCalls 1 nestedWorld).2.store.WellFormed ∧
    (eval 1 40 nestedCalls 1 nestedWorld).2.store.Walk 4 [4, 1, 0] := by
  have hf : 1 < nestedWorld.store.size := by decide
  have he : ∀ g, nestedCalls.Captures g → g < nestedWorld.store.size := fun g hg =>
    nestedCalls_captures g hg ▸ hf
  obtain ⟨hwell, -, -, hwalk⟩ :=
    eval_wellFormed 1 40 nestedCalls 1 nestedWorld nestedWorld_wellFormed hf he
  have hchain : (eval 1 40 nestedCalls 1 nestedWorld).2.store.chain 4 = [4, 1, 0] := by decide
  refine ⟨⟨nestedWorld_wellFormed, hf, he⟩, by decide, hchain, hwell, ?_⟩
  have hreach : nestedWorld.Reaches (eval 1 40 nestedCalls 1 nestedWorld).2 :=
    .passed .start hf he (Evaluation.passes_end 1 ⟨40, nestedCalls, 1, nestedWorld⟩)
  rw [← hchain]
  exact hwalk _ hreach 4 (by decide)

end Featherweight
