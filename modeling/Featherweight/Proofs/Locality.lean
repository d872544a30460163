import Featherweight.Proofs.Discipline

/-!
# Featherweight.Proofs.Locality

An evaluation depends on, and changes, only the frames in its reach.

* `Discipline.Agree D s t` : the frames that may be used are the same in both stores.
* `eval_repeats` : from stores that agree, an evaluation that keeps the discipline does the same.
* `Store.Reach s roots` : the frames that can be come by from `roots`, through the frames around a
  frame and through the closures in its bindings and in their code.
* `eval_confined` : an evaluation, and a call, is confined to the frames in its reach.
-/

namespace Featherweight

namespace Discipline

variable {D : Discipline} {s t : Store} {f : FrameId}

/-! ## Stores that agree -/

structure Agree (D : Discipline) (s t : Store) : Prop where
  size : t.size = s.size
  frame : ∀ f, D.frame s.size f → t[f]? = s[f]?

theorem Agree.get? (h : D.Agree s t) (hf : D.frame s.size f) (x : String) :
    t.get? f x = s.get? f x := by
  rw [Store.get?, Store.get?, h.frame f hf]

theorem Agree.binds (h : D.Agree s t) (hf : D.frame s.size f) (x : String) :
    t.binds f x = s.binds f x := by
  rw [Store.binds, Store.binds, h.get? hf]

theorem Agree.modify (h : D.Agree s t) (f : FrameId) (k : Frame → Frame) :
    D.Agree (s.modify f k) (t.modify f k) := by
  refine ⟨by rw [Array.size_modify, Array.size_modify, h.size], fun g hg => ?_⟩
  rw [Array.size_modify] at hg
  rw [Array.getElem?_modify, Array.getElem?_modify, h.frame g hg]

theorem Agree.push (h : D.Agree s t) (a : Frame) : D.Agree (s.push a) (t.push a) := by
  refine ⟨by rw [Array.size_push, Array.size_push, h.size], fun g hg => ?_⟩
  rw [Array.size_push] at hg
  rw [Array.getElem?_push, Array.getElem?_push, h.size]
  split
  · rfl
  · by_cases hlt : g < s.size
    · exact h.frame g (D.settled hlt hg)
    · have hge : s.size ≤ g := Nat.le_of_not_lt hlt
      rw [Array.getElem?_eq_none hge, Array.getElem?_eq_none (h.size ▸ hge)]

section Chain

variable (h : D.Agree s t) (hs : D.Obeyed s) (hf : D.frame s.size f)
include h hs hf

theorem Agree.chain : t.chain f = s.chain f := by
  have hfrom (n : Nat) (f : FrameId) (hf : D.frame s.size f) : t.chainFrom n f = s.chainFrom n f := by
    induction n generalizing f with
    | zero => rfl
    | succ n ih =>
      rw [Store.chainFrom, Store.chainFrom, h.frame f hf]
      cases ha : s[f]? with
      | none => rfl
      | some a =>
        dsimp only
        cases hp : a.parent with
        | none => rfl
        | some p =>
          have hlt : f < s.size := (Array.getElem?_eq_some_iff.1 ha).1
          simp only [ih p (D.frame_mono (Nat.le_of_lt hlt) (hs.parent ha hf hp))]
  exact hfrom (f + 1) f hf

/-- What is looked for along a chain is found alike, if it is alike in each frame. -/
theorem Agree.findSome? {β : Type} {k l : FrameId → Option β}
    (hkl : ∀ g, D.frame s.size g → k g = l g) :
    (t.chain f).findSome? k = (s.chain f).findSome? l := by
  rw [h.chain hs hf]
  have hall := hs.chain hf
  generalize s.chain f = chain at hall
  induction chain with
  | nil => rfl
  | cons g chain ih =>
    obtain ⟨hg, hchain⟩ := List.forall_mem_cons.1 hall
    rw [List.findSome?_cons, List.findSome?_cons, hkl g hg, ih hchain]

theorem Agree.resolve (x : String) : t.resolve f x = s.resolve f x := by
  rw [Store.resolve, Store.resolve, h.findSome? hs hf fun g hg => h.get? hg x]

theorem Agree.sink? : t.sink? f = s.sink? f := by
  rw [Store.sink?, Store.sink?]
  exact h.findSome? hs hf fun g hg => by rw [h.frame g hg]

theorem Agree.update (x : String) (v : Value) : D.Agree (s.update f x v) (t.update f x v) := by
  have howner : t.owner? f x = s.owner? f x := by
    rw [Store.owner?, Store.owner?, ← List.findSome?_guard, ← List.findSome?_guard]
    exact h.findSome? hs hf fun g hg => by simp only [Option.guard, h.binds hg x]
  have hroot : t.root f = s.root f := by rw [Store.root, Store.root, h.chain hs hf]
  rw [Store.update, Store.update, howner, hroot]
  exact h.modify _ _

end Chain

end Discipline

/-! ## Two runs side by side -/

namespace Eval

variable {D : Discipline} {n m : Nat} {f : FrameId} {α β : Type} {Q : Nat → α → Prop}

/-- Two computations, one from each world, did the same. -/
structure Alike (D : Discipline) (w t : World) (o p : Except Fault α × World) : Prop where
  result : p.1 = o.1
  agree : D.Agree o.2.store p.2.store
  log : ∃ out, o.2.log = out ++ w.log ∧ p.2.log = out ++ t.log

/-- From any two stores that agree, with `n` frames or more, the computation does the same. -/
def Repeats (D : Discipline) (n : Nat) (c : Eval α) : Prop :=
  ∀ w t, D.Obeyed w.store → n ≤ w.store.size → D.Agree w.store t.store → Alike D w t (c w) (c t)

theorem Repeats.later {c : Eval α} (h : Repeats D n c) (hn : n ≤ m) : Repeats D m c :=
  fun w t hw hm => h w t hw (Nat.le_trans hn hm)

theorem repeats_pure (a : α) : Repeats D n (pure a) :=
  fun _ _ _ _ ht => ⟨rfl, ht, [], rfl, rfl⟩

theorem repeats_fail (fault : Fault) : Repeats D n (fail fault : Eval α) :=
  fun _ _ _ _ ht => ⟨rfl, ht, [], rfl, rfl⟩

theorem Repeats.bind {c : Eval α} {k : α → Eval β} (h : Repeats D n c) (hc : Keeps D n Q c)
    (hk : ∀ m a, n ≤ m → Q m a → Repeats D m (k a)) : Repeats D n (c >>= k) := by
  intro w t hw hn ht
  have halike := h w t hw hn ht
  obtain ⟨hlead, hok⟩ := hc w hw hn
  rw [bind_apply, bind_apply]
  generalize c w = o at halike hlead hok
  generalize c t = p at halike
  obtain ⟨r, w₁⟩ := o
  obtain ⟨r', t₁⟩ := p
  obtain ⟨hresult, hagree, out, hout, hout'⟩ := halike
  cases hresult
  cases r with
  | ok a =>
    have hm : n ≤ w₁.store.size := Nat.le_trans hn hlead.size_le
    obtain ⟨hresult, hagree, more, hmore, hmore'⟩ :=
      hk _ a hm (hok a rfl) w₁ t₁ hlead.obeyed (Nat.le_refl _) hagree
    refine ⟨hresult, hagree, more ++ out, ?_, ?_⟩
    · rw [hmore, hout, List.append_assoc]
    · rw [hmore', hout', List.append_assoc]
  | error fault => exact ⟨rfl, hagree, out, hout, hout'⟩

/-- An error without a place gets that of the node in both runs. -/
theorem Repeats.locate {c : Eval Value} (h : Repeats D n c) (e : Expr) :
    Repeats D n (locate e c) := by
  intro w t hw hn ht
  have halike := h w t hw hn ht
  rw [Eval.locate, Eval.locate]
  generalize c w = o at halike
  generalize c t = p at halike
  obtain ⟨r, w₁⟩ := o
  obtain ⟨r', t₁⟩ := p
  obtain ⟨hresult, hagree, hlog⟩ := halike
  cases hresult
  cases r with
  | ok v => exact ⟨rfl, hagree, hlog⟩
  | error fault =>
    cases fault with
    | error cause pos => cases pos <;> exact ⟨rfl, hagree, hlog⟩
    | limit => exact ⟨rfl, hagree, hlog⟩

theorem Repeats.ite {b : Prop} [Decidable b] {c d : Eval α} (hc : Repeats D n c)
    (hd : Repeats D n d) : Repeats D n (if b then c else d) := by
  split
  · exact hc
  · exact hd

theorem repeats_ofExcept (r : Except Cause α) : Repeats D n (ofExcept r) := by
  cases r with
  | ok a => exact repeats_pure a
  | error cause => exact repeats_fail _

theorem repeats_asBool (test : Test) (v : Value) : Repeats D n (asBool test v) := by
  cases v with
  | bool b => exact repeats_pure b
  | _ => exact repeats_fail _

theorem repeats_newFrame (a : Frame) : Repeats D n (newFrame a) := by
  intro w t _ _ ht
  exact ⟨congrArg Except.ok ht.size, ht.push a, [], rfl, rfl⟩

section Frame

variable (hf : D.frame n f)
include hf

theorem repeats_resolve (x : String) : Repeats D n (resolve f x) := by
  intro w t hw hn ht
  exact ⟨congrArg Except.ok (ht.resolve hw (D.frame_mono hn hf) x), ht, [], rfl, rfl⟩

theorem repeats_update (x : String) (v : Value) : Repeats D n (update f x v) := by
  intro w t hw hn ht
  exact ⟨rfl, ht.update hw (D.frame_mono hn hf) x v, [], rfl, rfl⟩

theorem repeats_create (x : String) (v : Value) : Repeats D n (create f x v) := by
  intro w t hw hn ht
  rw [create, create, ht.binds (D.frame_mono hn hf) x]
  split
  · exact ⟨rfl, ht, [], rfl, rfl⟩
  · exact ⟨rfl, ht.modify f (·.set x v), [], rfl, rfl⟩

theorem repeats_emit (v : Value) : Repeats D n (emit f v) := by
  intro w t hw hn ht
  refine ⟨rfl, ht, [(w.store.sink? f, v)], rfl, ?_⟩
  rw [← ht.sink? hw (D.frame_mono hn hf)]
  rfl

theorem repeats_makeClosure (params : List String) (body : Expr) :
    Repeats D n (makeClosure params body f) := by
  intro w t _ hn ht
  have hframe := ht.frame f (D.frame_mono hn hf)
  refine ⟨?_, ?_, [], rfl, rfl⟩
  · simp only [makeClosure, hframe]
  · simp only [makeClosure, hframe]
    exact ht.modify f _

end Frame

theorem repeats_bindParams (hf : D.frame n f) (xs : List String) {vs : List Value}
    (hvs : ∀ v ∈ vs, D.Admits n v) : Repeats D n (bindParams f xs vs) := by
  induction xs generalizing vs with
  | nil => exact repeats_pure ()
  | cons x xs ih =>
    cases vs with
    | nil => exact repeats_pure ()
    | cons v vs =>
      obtain ⟨hv, hvs⟩ := List.forall_mem_cons.1 hvs
      exact (repeats_create hf x v).bind (keeps_create hf hv x) fun m _ hm _ => (ih hvs).later hm

theorem repeats_whileTrue {test : Eval Bool} {body : Eval Value} (ht : Repeats D n test)
    (ht' : Keeps D n (fun _ _ => True) test) (hb : Repeats D n body)
    (hb' : Keeps D n D.Admits body) (rounds : Nat) :
    Repeats D n (whileTrue test body rounds) := by
  induction rounds with
  | zero => exact repeats_fail _
  | succ rounds ih =>
    refine ht.bind ht' fun m _ hm _ => .ite ?_ (repeats_pure _)
    exact (hb.later hm).bind (hb'.later hm) fun m' _ hm' _ => ih.later (Nat.le_trans hm hm')

theorem repeats_runAll {run : Expr → Eval Value} {es : List Expr}
    (h : ∀ e ∈ es, Repeats D n (run e) ∧ Keeps D n D.Admits (run e)) (last : Value) :
    Repeats D n (runAll run last es) := by
  induction es generalizing n last with
  | nil => exact repeats_pure last
  | cons e es ih =>
    obtain ⟨⟨he, he'⟩, hes⟩ := List.forall_mem_cons.1 h
    exact he.bind he' fun m v hm _ => ih (fun e he => (hes e he).imp (·.later hm) (·.later hm)) v

theorem repeats_evalArgs {run : Expr → Eval Value} {es : List Expr}
    (h : ∀ e ∈ es, Repeats D n (run e) ∧ Keeps D n D.Admits (run e)) :
    Repeats D n (evalArgs run es) := by
  induction es generalizing n with
  | nil => exact repeats_pure []
  | cons e es ih =>
    obtain ⟨⟨he, he'⟩, hes⟩ := List.forall_mem_cons.1 h
    refine he.bind he' fun m v hm _ => ?_
    have hes' : ∀ e ∈ es, Repeats D m (run e) ∧ Keeps D m D.Admits (run e) :=
      fun e he => (hes e he).imp (·.later hm) (·.later hm)
    exact (ih hes').bind (keeps_evalArgs fun e he => (hes' e he).2) fun _ vs _ _ =>
      repeats_pure (v :: vs)

theorem repeats_callWith {run : Expr → FrameId → Eval Value}
    (h : ∀ m e g, D.Code m e → D.frame m g → Repeats D m (run e g)) {v : Value}
    (hv : D.Admits n v) {args : List Value} (hargs : ∀ a ∈ args, D.Admits n a) :
    Repeats D n (callWith run v args) := by
  cases v with
  | closure params body frame i =>
    refine .ite ?_ (repeats_fail _)
    refine (repeats_newFrame _).bind (keeps_newFrame (D.closure.1 hv.1)) fun m inner hm hinner => ?_
    have hargs' : ∀ a ∈ args, D.Admits m a := fun a ha => (hargs a ha).mono hm
    refine (repeats_bindParams hinner params hargs').bind (keeps_bindParams hinner params hargs')
      fun m' _ hm' _ => ?_
    exact h m' body inner (Discipline.Code.mono hv.2 (Nat.le_trans hm hm')) (D.frame_mono hm' hinner)
  | _ => exact repeats_fail _

end Eval

open Eval Discipline in
theorem eval_repeats {D : Discipline} {n : Nat} {e : Expr} {f : FrameId} (rounds depth : Nat)
    (he : D.Code n e) (hf : D.frame n f) : Repeats D n (eval rounds depth e f) := by
  induction depth using depth_induction generalizing n e f with
  | short depth h =>
    rw [eval_of_lt h]
    exact repeats_fail _
  | node depth inner ih =>
    have hkeeps {m : Nat} {e : Expr} {f : FrameId} (he : D.Code m e) (hf : D.frame m f) :=
      eval_keeps rounds (depth + 1) he hf
    refine Repeats.locate ?_ e
    cases e with
    | literal v pos => exact repeats_pure v
    | var x pos => exact repeats_resolve hf x
    | print a pos =>
      refine (ih he.2 hf).bind (hkeeps he.2 hf) fun m v hm hv => ?_
      exact (repeats_emit (D.frame_mono hm hf) v).bind (keeps_emit hv) fun _ _ _ _ => repeats_pure v
    | binary op a b pos =>
      refine (ih he.2.1 hf).bind (hkeeps he.2.1 hf) fun m x hm _ => ?_
      have hb := Code.mono he.2.2 hm
      have hf' := D.frame_mono hm hf
      exact (ih hb hf').bind (hkeeps hb hf') fun _ y _ _ => repeats_ofExcept _
    | branch test yes no pos =>
      refine (ih he.2.1 hf).bind (hkeeps he.2.1 hf) fun m v hm _ => ?_
      refine (repeats_asBool _ v).bind (keeps_asBool _ v) fun m' _ hm' _ => ?_
      have hle := Nat.le_trans hm hm'
      have hf' := D.frame_mono hle hf
      exact .ite (ih (Code.mono he.2.2.1 hle) hf') (ih (Code.mono he.2.2.2 hle) hf')
    | loop test body pos =>
      refine repeats_whileTrue ?_ ?_ (ih he.2.2 hf) (hkeeps he.2.2 hf) rounds
      · exact (ih he.2.1 hf).bind (hkeeps he.2.1 hf) fun _ v _ _ => repeats_asBool _ v
      · exact (hkeeps he.2.1 hf).bind fun _ v _ _ => keeps_asBool _ v
    | seq a b pos =>
      exact repeats_runAll (fun s hs => ⟨ih (he.leaves s hs) hf, hkeeps (he.leaves s hs) hf⟩) .null
    | declare x init pos =>
      refine (ih he.2 hf).bind (hkeeps he.2 hf) fun m v hm hv => ?_
      have hf' := D.frame_mono hm hf
      exact (repeats_create hf' x v).bind (keeps_create hf' hv x) fun _ _ hm' _ =>
        repeats_resolve (D.frame_mono hm' hf') x
    | assign x value pos =>
      refine (ih he.2 hf).bind (hkeeps he.2 hf) fun m v hm hv => ?_
      have hf' := D.frame_mono hm hf
      exact (repeats_update hf' x v).bind (keeps_update hf' hv x) fun _ _ hm' _ =>
        repeats_resolve (D.frame_mono hm' hf') x
    | function params body pos => exact repeats_makeClosure hf params body
    | call callee args pos =>
      refine (ih he.2.1 hf).bind (hkeeps he.2.1 hf) fun m v hm hv => ?_
      cases v with
      | closure params body frame i =>
        have hargs : ∀ a ∈ args, Repeats D m (eval rounds depth a f) ∧
            Keeps D m D.Admits (eval rounds depth a f) := by
          intro a ha
          have hcode := (Expr.allIn_iff_forall args).1 he.2.2 a ha
          exact ⟨(inner hcode hf).later hm, (eval_keeps rounds depth hcode hf).later hm⟩
        refine (repeats_evalArgs hargs).bind (keeps_evalArgs fun a ha => (hargs a ha).2)
          fun m' vs hm' hvs => ?_
        exact repeats_callWith (fun m e g he hg => inner he hg) (hv.mono hm') hvs
      | _ => exact repeats_fail _
    | blank => exact repeats_fail _
    | host h => exact repeats_fail _

/-! ## Reach -/

inductive Store.Reach (s : Store) (roots : FrameId → Prop) : FrameId → Prop where
  | root {f : FrameId} : roots f → Reach s roots f
  | parent {f p : FrameId} {a : Frame} : Reach s roots f → s[f]? = some a → a.parent = some p →
      Reach s roots p
  | captured {f g : FrameId} {a : Frame} {x : String} {v : Value} : Reach s roots f →
      s[f]? = some a → (x, v) ∈ a.vars → v.Captures g → Reach s roots g

/-- Use frames in reach, and new ones. Closures are read from bindings and from code or made over such
frames, so nothing else ever comes into reach. -/
def Discipline.within (s : Store) (roots : FrameId → Prop) : Discipline :=
  ofFrames (fun _ => True) (fun _ f => s.Reach roots f ∨ s.size ≤ f) s.size (fun _ _ _ _ h => h)
    (fun _ h => .inr h) (fun _ _ _ h => h)

namespace Discipline

variable {s : Store} {roots : FrameId → Prop}

theorem within_obeyed (s : Store) (roots : FrameId → Prop) : (within s roots).Obeyed s where
  base_le := Nat.le_refl _
  parent {i a p} ha hi hp := by
    have hlt : i < s.size := (Array.getElem?_eq_some_iff.1 ha).1
    rcases hi with hi | hi
    · exact .inl (.parent hi ha hp)
    · exact absurd hlt (Nat.not_lt.2 hi)
  binding {i a x v} ha hi hv := by
    have hlt : i < s.size := (Array.getElem?_eq_some_iff.1 ha).1
    rcases hi with hi | hi
    · exact ofFrames_admits.2 ⟨fun _ _ => trivial, fun g hg => .inl (.captured hi ha hv hg)⟩
    · exact absurd hlt (Nat.not_lt.2 hi)

theorem within_code {n : Nat} {e : Expr} (h : ∀ g, e.Captures g → roots g) :
    (within s roots).Code n e :=
  ofFrames_code.2 ⟨fun _ _ => trivial, fun g hg => .inl (.root (h g hg))⟩

theorem within_admits {n : Nat} {v : Value} (h : ∀ g, v.Captures g → roots g) :
    (within s roots).Admits n v :=
  ofFrames_admits.2 ⟨fun _ _ => trivial, fun g hg => .inl (.root (h g hg))⟩

end Discipline

namespace Eval

variable {α : Type} {roots : FrameId → Prop}

/-- Of the frames that there are, the computation changes only those in reach of the roots. From a
store of the same size with the same frames there, it gives the same result, prints the same values to
the same sinks, adds the same frames and leaves the frames in reach the same. -/
structure ConfinedTo (roots : FrameId → Prop) (c : Eval α) : Prop where
  unchanged : ∀ (w : World) (g : FrameId), g < w.store.size → ¬ w.store.Reach roots g →
    (c w).2.store[g]? = w.store[g]?
  repeats : ∀ w t : World, t.store.size = w.store.size →
    (∀ g, w.store.Reach roots g → t.store[g]? = w.store[g]?) →
    (c t).1 = (c w).1 ∧
    (∃ out, (c w).2.log = out ++ w.log ∧ (c t).2.log = out ++ t.log) ∧
    (c t).2.store.size = (c w).2.store.size ∧
    ∀ g, w.store.Reach roots g ∨ w.store.size ≤ g → (c t).2.store[g]? = (c w).2.store[g]?

theorem ConfinedTo.of_within {c : Eval α} {Q : Store → Nat → α → Prop}
    (hkeeps : ∀ s, Keeps (.within s roots) 0 (Q s) c) (hrepeats : ∀ s, Repeats (.within s roots) 0 c) :
    ConfinedTo roots c where
  unchanged w g hg hreach := by
    obtain ⟨hlead, -⟩ := hkeeps w.store w (Discipline.within_obeyed _ _) (Nat.zero_le _)
    refine hlead.same g ?_
    rintro (h | h)
    · exact hreach h
    · exact absurd hg (Nat.not_lt.2 h)
  repeats w t hsize hagree := by
    have hstores : (Discipline.within w.store roots).Agree w.store t.store := by
      refine ⟨hsize, fun g hg => ?_⟩
      rcases hg with hg | hg
      · exact hagree g hg
      · rw [Array.getElem?_eq_none hg, Array.getElem?_eq_none (hsize ▸ hg)]
    obtain ⟨hresult, hfinal, hlog⟩ :=
      hrepeats w.store w t (Discipline.within_obeyed _ _) (Nat.zero_le _) hstores
    exact ⟨hresult, hlog, hfinal.size, hfinal.frame⟩

end Eval

/-- An evaluation is confined to what can be reached from its frame and from the closures in the tree,
and a call to what can be reached from the closure and the arguments: the frame of the caller is as any
other. -/
theorem eval_confined (rounds depth : Nat) :
    (∀ e f, (eval rounds depth e f).ConfinedTo fun g => g = f ∨ e.Captures g) ∧
    ∀ v args, (Eval.callWith (eval rounds depth) v args).ConfinedTo fun g =>
      v.Captures g ∨ ∃ a ∈ args, a.Captures g := by
  constructor
  · intro e f
    have hcode (s : Store) : (Discipline.within s fun g => g = f ∨ e.Captures g).Code 0 e :=
      Discipline.within_code fun _ => .inr
    have hframe (s : Store) : (Discipline.within s fun g => g = f ∨ e.Captures g).frame 0 f :=
      .inl (.root (.inl rfl))
    exact .of_within (fun s => eval_keeps rounds depth (hcode s) (hframe s))
      fun s => eval_repeats rounds depth (hcode s) (hframe s)
  · intro v args
    have hv (s : Store) : (Discipline.within s fun g => v.Captures g ∨ ∃ a ∈ args, a.Captures g).Admits
        0 v := Discipline.within_admits fun _ => .inl
    have hargs (s : Store) : ∀ a ∈ args, (Discipline.within s fun g =>
        v.Captures g ∨ ∃ a ∈ args, a.Captures g).Admits 0 a :=
      fun a ha => Discipline.within_admits fun _ hg => .inr ⟨a, ha, hg⟩
    exact .of_within
      (fun s => Eval.keeps_callWith (fun _ _ _ he hg => eval_keeps rounds depth he hg) (hv s) (hargs s))
      fun s => Eval.repeats_callWith (fun _ _ _ he hg => eval_repeats rounds depth he hg) (hv s)
        (hargs s)

/-- Two roots that share a name, and a frame inside the first with a closure that adds to it. -/
def twoRoots (hidden : Value) : World where
  store := #[
    ⟨none, [("count", .int 1)], none, none, 1⟩,
    ⟨none, [("count", hidden)], none, none, 0⟩,
    ⟨some 0, [("bump", .closure ["n"] (.assign "count"
      (.binary .add (.var "count" none) (.var "n" none) none) none) 0 0)], none, none, 0⟩]
  log := []

def printBump : Expr := .print (.call (.var "bump" none) [.literal (.int 5) none] none) none

theorem reach_twoRoots {hidden : Value} {g : FrameId}
    (h : (twoRoots hidden).store.Reach (fun g => g = 2 ∨ printBump.Captures g) g) :
    g = 0 ∨ g = 2 := by
  induction h with
  | root hroot =>
    obtain hroot | ⟨params, body, i, hmem⟩ := hroot
    · exact .inr hroot
    · simp [printBump, Expr.values, Expr.valuesIn, Value.values] at hmem
  | parent _ ha hp ih =>
    obtain rfl | rfl := ih
    · cases ha; cases hp
    · cases ha; cases hp; exact .inl rfl
  | captured _ ha hv hg ih =>
    obtain ⟨params, body, i, hmem⟩ := hg
    obtain rfl | rfl := ih
    · cases ha
      cases List.mem_singleton.1 hv
      simp [Value.values] at hmem
    · cases ha
      cases List.mem_singleton.1 hv
      simp only [Value.values, Expr.values, List.mem_cons, Value.closure.injEq, List.mem_append,
        List.not_mem_nil, or_false] at hmem
      exact .inl hmem.2.2.1

/-- What the second root holds is neither seen nor changed by a call that adds to the first. -/
theorem eval_confined_twoRoots :
    (twoRoots (.int 8)).store[1]? ≠ (twoRoots (.int 7)).store[1]? ∧
    (eval 1 20 printBump 2 (twoRoots (.int 7))).2.store[1]? = (twoRoots (.int 7)).store[1]? ∧
    (eval 1 20 printBump 2 (twoRoots (.int 8))).2.store[1]? = (twoRoots (.int 8)).store[1]? ∧
    (eval 1 20 printBump 2 (twoRoots (.int 7))).2.log = [(none, .int 6)] ∧
    (eval 1 20 printBump 2 (twoRoots (.int 8))).1 = (eval 1 20 printBump 2 (twoRoots (.int 7))).1 ∧
    (eval 1 20 printBump 2 (twoRoots (.int 8))).2.log =
      (eval 1 20 printBump 2 (twoRoots (.int 7))).2.log ∧
    (eval 1 20 printBump 2 (twoRoots (.int 8))).2.store.size =
      (eval 1 20 printBump 2 (twoRoots (.int 7))).2.store.size ∧
    ∀ g, g ≠ 1 → (eval 1 20 printBump 2 (twoRoots (.int 8))).2.store[g]? =
      (eval 1 20 printBump 2 (twoRoots (.int 7))).2.store[g]? := by
  have hconfined := (eval_confined 1 20).1 printBump 2
  have hhidden (v : Value) :
      ¬ (twoRoots v).store.Reach (fun g => g = 2 ∨ printBump.Captures g) 1 := by
    intro h
    rcases reach_twoRoots h with h | h <;> cases h
  have hagree (g : FrameId)
      (h : (twoRoots (.int 7)).store.Reach (fun g => g = 2 ∨ printBump.Captures g) g) :
      (twoRoots (.int 8)).store[g]? = (twoRoots (.int 7)).store[g]? := by
    rcases reach_twoRoots h with rfl | rfl <;> rfl
  obtain ⟨hresult, ⟨out, hlog, hlog'⟩, hsize, hframes⟩ :=
    hconfined.repeats (twoRoots (.int 7)) (twoRoots (.int 8)) rfl hagree
  refine ⟨by simp [twoRoots], hconfined.unchanged _ 1 (by decide) (hhidden _),
    hconfined.unchanged _ 1 (by decide) (hhidden _), rfl, hresult, hlog'.trans hlog.symm, hsize,
    fun g hg => ?_⟩
  refine hframes g ?_
  match g with
  | 0 => exact .inl (.parent (.root (.inl rfl)) rfl rfl)
  | 1 => exact absurd rfl hg
  | 2 => exact .inl (.root (.inl rfl))
  | g + 3 => exact .inr (Nat.le_add_left 3 g)

end Featherweight
