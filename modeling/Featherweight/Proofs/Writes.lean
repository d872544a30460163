import Featherweight.Proofs.WellFormed

/-!
# Featherweight.Proofs.Writes

What writing a variable does, and who sees it.

* `Store.Sees s x g t` : going outwards from `g`, one comes to `t` before any other frame that binds
  `x`.
* `Store.Target s x e t` : an assignment to `x` in `e` goes to `t`.
* `Store.Writes s t x v s'` : all that is different in `s'` is that `t` binds `x` to `v`, which is
  what the frames that see `t` read there.
* `writes_one_binding` : assigning and declaring are such writes.
-/

namespace Featherweight

namespace Store

inductive Sees (s : Store) (x : String) : FrameId → FrameId → Prop where
  | here {g : FrameId} {a : Frame} : s[g]? = some a → Sees s x g g
  | outwards {g p t : FrameId} {a : Frame} : s[g]? = some a → a.get? x = none →
      a.parent = some p → Sees s x p t → Sees s x g t

/-- The innermost frame that binds the name, or the root if there is none. -/
structure Target (s : Store) (x : String) (e t : FrameId) : Prop where
  sees : s.Sees x e t
  ends : ∃ a, s[t]? = some a ∧ ((a.get? x).isSome = true ∨ a.parent = none)

structure Writes (s : Store) (t : FrameId) (x : String) (v : Value) (s' : Store) : Prop where
  size : s'.size = s.size
  elsewhere : ∀ f, f ≠ t → s'[f]? = s[f]?
  there : ∃ a vars, s[t]? = some a ∧ s'[t]? = some { a with vars := vars } ∧
    vars.map Prod.fst = if x ∈ a.names then a.names else a.names ++ [x]
  bound : ∀ y, s'.get? t y = if y = x then some v else s.get? t y
  seen : ∀ g, s.Sees x g t → s'.resolve g x = v
  unseen : ∀ g < s.size, ∀ m, ¬ (m = x ∧ s.Sees x g t) → s'.resolve g m = s.resolve g m

variable {s : Store} {e f g p t : FrameId} {a : Frame} {x : String} {v : Value}

/-! ## Chains by recursion -/

theorem Walk.unique {fs gs : List FrameId} (h : s.Walk f fs) (h' : s.Walk f gs) : fs = gs := by
  induction h generalizing gs with
  | root ha hp =>
    cases h' with
    | root => rfl
    | outwards ha' hp' _ =>
      obtain rfl := Option.some.inj (ha.symm.trans ha')
      rw [hp] at hp'
      cases hp'
  | outwards ha hp _ ih =>
    cases h' with
    | root ha' hp' =>
      obtain rfl := Option.some.inj (ha.symm.trans ha')
      rw [hp] at hp'
      cases hp'
    | outwards ha' hp' hwalk =>
      obtain rfl := Option.some.inj (ha.symm.trans ha')
      obtain rfl := Option.some.inj (hp.symm.trans hp')
      rw [ih hwalk]

theorem lt_size_of_getElem? (ha : s[f]? = some a) : f < s.size :=
  (Array.getElem?_eq_some_iff.1 ha).1

namespace Ordered

theorem parent_lt_size (h : s.Ordered) (ha : s[f]? = some a) (hp : a.parent = some p) :
    p < s.size :=
  Nat.lt_trans (h f a p ha hp) (lt_size_of_getElem? ha)

theorem chain_root (h : s.Ordered) (ha : s[f]? = some a) (hp : a.parent = none) :
    s.chain f = [f] :=
  (h.walk_chain (lt_size_of_getElem? ha)).unique (.root ha hp)

theorem chain_outwards (h : s.Ordered) (ha : s[f]? = some a) (hp : a.parent = some p) :
    s.chain f = f :: s.chain p :=
  (h.walk_chain (lt_size_of_getElem? ha)).unique
    (.outwards ha hp (h.walk_chain (h.parent_lt_size ha hp)))

theorem resolve_root (h : s.Ordered) (ha : s[f]? = some a) (hp : a.parent = none) :
    s.resolve f x = (a.get? x).getD .null := by
  have hget : s.get? f x = a.get? x := by simp [Store.get?, ha]
  cases hx : a.get? x <;> simp [resolve, h.chain_root ha hp, hget, hx]

/-- A name is read in the frame itself, and else in the frame around it. -/
theorem resolve_outwards (h : s.Ordered) (ha : s[f]? = some a) (hp : a.parent = some p) :
    s.resolve f x = (a.get? x).getD (s.resolve p x) := by
  have hget : s.get? f x = a.get? x := by simp [Store.get?, ha]
  cases hx : a.get? x <;> simp [resolve, h.chain_outwards ha hp, hget, hx]

end Ordered

/-! ## Where an assignment goes -/

/-- The frame that an assignment writes to. -/
def target (s : Store) (f : FrameId) (x : String) : FrameId := (s.owner? f x).getD (s.root f)

theorem update_eq (s : Store) (f : FrameId) (x : String) (v : Value) :
    s.update f x v = s.set (s.target f x) x v := rfl

namespace Ordered

theorem target_here (h : s.Ordered) (ha : s[f]? = some a)
    (hstop : (a.get? x).isSome = true ∨ a.parent = none) : s.target f x = f := by
  have hbinds : s.binds f x = (a.get? x).isSome := by simp [binds, Store.get?, ha]
  cases hp : a.parent with
  | none => cases hx : (a.get? x).isSome <;>
      simp [target, owner?, root, h.chain_root ha hp, hbinds, hx]
  | some p =>
    have hx : (a.get? x).isSome = true := by simpa [hp] using hstop
    simp [target, owner?, h.chain_outwards ha hp, hbinds, hx]

/-- The search for a frame that binds the name and the search for the root go the same way. -/
theorem target_outwards (h : s.Ordered) (ha : s[f]? = some a) (hx : a.get? x = none)
    (hp : a.parent = some p) : s.target f x = s.target p x := by
  have hbinds : s.binds f x = false := by simp [binds, Store.get?, ha, hx]
  have hroot : s.root f = s.root p := by
    have hlast : (s.chain p).getLastD f = (s.chain p).getLastD p := by
      have hwalk := h.walk_chain (h.parent_lt_size ha hp)
      generalize s.chain p = fs at hwalk
      cases hwalk <;> rw [List.getLastD_cons, List.getLastD_cons]
    rw [root, root, h.chain_outwards ha hp, List.getLastD_cons, hlast]
  simp [target, owner?, hroot, h.chain_outwards ha hp, hbinds]

theorem target (h : s.Ordered) (hf : f < s.size) : s.Target x f (s.target f x) := by
  induction f using Nat.strongRecOn with
  | _ f ih =>
    have ha : s[f]? = some s[f] := Array.getElem?_eq_getElem hf
    by_cases hstop : (s[f].get? x).isSome = true ∨ s[f].parent = none
    · rw [h.target_here ha hstop]
      exact ⟨.here ha, _, ha, hstop⟩
    · obtain ⟨hx, hparent⟩ := not_or.1 hstop
      obtain ⟨p, hp⟩ := Option.ne_none_iff_exists'.1 hparent
      have hx : s[f].get? x = none := by simpa using hx
      rw [h.target_outwards ha hx hp]
      obtain ⟨hsees, hends⟩ := ih p (h f _ p ha hp) (h.parent_lt_size ha hp)
      exact ⟨.outwards ha hx hp hsees, hends⟩

end Ordered

theorem Target.unique {t' : FrameId} (h : s.Target x e t) (h' : s.Target x e t') : t' = t := by
  obtain ⟨hsees, a, ha, hstop⟩ := h
  obtain ⟨hsees', a', ha', hstop'⟩ := h'
  induction hsees with
  | here hg =>
    cases hsees' with
    | here => rfl
    | outwards hg' hx hp _ =>
      obtain rfl := Option.some.inj (ha.symm.trans hg')
      simp [hx, hp] at hstop
  | outwards hg hx hp _ ih =>
    cases hsees' with
    | here =>
      obtain rfl := Option.some.inj (ha'.symm.trans hg)
      simp [hx, hp] at hstop'
    | outwards hg' hx' hp' hrest =>
      obtain rfl := Option.some.inj (hg.symm.trans hg')
      obtain rfl := Option.some.inj (hp.symm.trans hp')
      exact ih ha hrest

/-! ## What a write changes -/

/-- A frame after a write keeps its parent and all bindings but one. -/
theorem getElem?_set (s : Store) (t : FrameId) (x : String) (v : Value) (ha : s[g]? = some a) :
    ∃ b, (s.set t x v)[g]? = some b ∧ b.parent = a.parent ∧
      (∀ m, ¬ (m = x ∧ g = t) → b.get? m = a.get? m) ∧ (g = t → b.get? x = some v) := by
  by_cases hg : g = t
  · subst hg
    refine ⟨a.set x v, by simp [set, Array.getElem?_modify, ha], rfl, fun m hm => ?_, fun _ => ?_⟩
    · have hne : m ≠ x := fun hmx => hm ⟨hmx, rfl⟩
      rw [Frame.get?_set, if_neg hne]
    · rw [Frame.get?_set, if_pos rfl]
  · have hne : t ≠ g := fun h => hg h.symm
    exact ⟨a, by simp [set, Array.getElem?_modify, ha, hne], rfl, fun _ _ => rfl, fun h => absurd h hg⟩

namespace Ordered

theorem set (h : s.Ordered) (t : FrameId) (x : String) (v : Value) : Ordered (s.set t x v) := by
  intro f b p hb hp
  have hf : f < s.size := by simpa [size_set] using lt_size_of_getElem? hb
  obtain ⟨b', hb', hparent, -⟩ := getElem?_set s t x v (Array.getElem?_eq_getElem hf)
  obtain rfl := Option.some.inj (hb.symm.trans hb')
  exact h f _ p (Array.getElem?_eq_getElem hf) (hparent ▸ hp)

theorem resolve_eq (h : s.Ordered) (ha : s[f]? = some a) :
    s.resolve f x = (a.get? x).getD ((a.parent.map fun p => s.resolve p x).getD .null) := by
  cases hp : a.parent with
  | none => exact h.resolve_root ha hp
  | some p => exact h.resolve_outwards ha hp

/-- Who comes to the frame first reads what was written. -/
theorem resolve_of_sees (h : s.Ordered) (v : Value) (hsees : s.Sees x g t) :
    (s.set t x v).resolve g x = v := by
  induction hsees with
  | here ha =>
    obtain ⟨b, hb, -, -, hv⟩ := getElem?_set s _ x v ha
    rw [(h.set _ x v).resolve_eq hb, hv rfl, Option.getD_some]
  | @outwards g p t a ha hx hp _ ih =>
    obtain ⟨b, hb, hparent, hkept, hv⟩ := getElem?_set s t x v ha
    rw [(h.set t x v).resolve_eq hb]
    by_cases hg : g = t
    · rw [hv hg, Option.getD_some]
    · rw [hkept x (fun hm => hg hm.2), hx, hparent, hp]
      exact ih

/-- All else is read as before. -/
theorem resolve_of_not_sees (h : s.Ordered) (v : Value) {m : String} (hg : g < s.size)
    (hnot : ¬ (m = x ∧ s.Sees x g t)) : (s.set t x v).resolve g m = s.resolve g m := by
  induction g using Nat.strongRecOn with
  | _ g ih =>
    have ha : s[g]? = some s[g] := Array.getElem?_eq_getElem hg
    obtain ⟨b, hb, hparent, hkept, -⟩ := getElem?_set s t x v ha
    have hsame : b.get? m = s[g].get? m := by
      refine hkept m ?_
      rintro ⟨rfl, rfl⟩
      exact hnot ⟨rfl, .here ha⟩
    rw [(h.set t x v).resolve_eq hb, h.resolve_eq ha, hsame, hparent]
    cases hm : s[g].get? m with
    | some u => rfl
    | none =>
      cases hp : s[g].parent with
      | none => rfl
      | some p =>
        refine ih p (h g _ p ha hp) (h.parent_lt_size ha hp) ?_
        rintro ⟨rfl, hsees⟩
        exact hnot ⟨rfl, .outwards ha hm hp hsees⟩

theorem writes (h : s.Ordered) (ht : t < s.size) (x : String) (v : Value) :
    s.Writes t x v (s.set t x v) where
  size := size_set s t x v
  elsewhere f hf := by
    have hne : t ≠ f := fun h => hf h.symm
    simp [Store.set, Array.getElem?_modify, hne]
  there := by
    have ha : s[t]? = some s[t] := Array.getElem?_eq_getElem ht
    refine ⟨s[t], bindIn x v s[t].vars, ha, ?_, map_fst_bindIn x v s[t].vars⟩
    simp [Store.set, Array.getElem?_modify, ha, Frame.set]
  bound y := by
    have ha : s[t]? = some s[t] := Array.getElem?_eq_getElem ht
    simp [Store.get?, Store.set, Array.getElem?_modify, ha, Frame.get?_set]
  seen g hsees := h.resolve_of_sees v hsees
  unseen g hg m hnot := h.resolve_of_not_sees v hg hnot

end Ordered

end Store

/-! ## Assigning and declaring -/

section

open Eval

variable {s : Store} {e : FrameId} {x : String} {v : Value} {rounds depth : Nat} {a : Expr}
  {w : World} {log : List (Option SinkId × Value)}

theorem eval_assign (h : s.Ordered) (he : e < s.size)
    (ha : eval rounds (depth + 1) a e w = (.ok v, ⟨s, log⟩)) (pos : Option Pos) :
    eval rounds (depth + 4) (.assign x a pos) e w = (.ok v, ⟨s.update e x v, log⟩) := by
  have hread : (s.update e x v).resolve e x = v := by
    rw [Store.update_eq]
    exact h.resolve_of_sees v (h.target he).sees
  simp [eval_node, step, locate, bind_apply, ha, update, resolve, Eval.read, hread]

theorem eval_declare (h : s.Ordered) (he : e < s.size)
    (ha : eval rounds (depth + 1) a e w = (.ok v, ⟨s, log⟩)) (hx : s.binds e x = false)
    (pos : Option Pos) :
    eval rounds (depth + 4) (.declare x a pos) e w = (.ok v, ⟨s.set e x v, log⟩) := by
  have hread : (s.set e x v).resolve e x = v :=
    h.resolve_of_sees v (.here (Array.getElem?_eq_getElem he))
  simp [eval_node, step, locate, bind_apply, ha, create, hx, resolve, Eval.read, hread]

theorem eval_redeclare (ha : eval rounds (depth + 1) a e w = (.ok v, ⟨s, log⟩))
    (hx : s.binds e x = true) (pos : Option Pos) :
    eval rounds (depth + 4) (.declare x a pos) e w =
      (.error (.error (.duplicate x) (place? (.declare x a pos))), ⟨s, log⟩) := by
  simp [eval_node, step, locate, bind_apply, ha, create, hx]

end

/-- Take a store in which parents are older, and a frame of it. An assignment goes to one frame, the
innermost that binds the name or else the root, and writes there. A declaration writes to the frame
itself, unless it binds the name already: then it fails and the store stays as it is. A write changes
that one binding, and the new value is read by exactly those who come to that frame before any other
that binds the name. So the value of an assignment or a declaration is the one that was computed. -/
theorem writes_one_binding (s : Store) (h : s.Ordered) (e : FrameId) (he : e < s.size) (x : String)
    (v : Value) :
    (∃ t, s.Target x e t ∧ (∀ t', s.Target x e t' → t' = t) ∧ s.Writes t x v (s.update e x v)) ∧
    (s.binds e x = false → s.Writes e x v (s.set e x v)) ∧
    (∀ log, Eval.create e x v ⟨s, log⟩ =
      if s.binds e x then (.error (.error (.duplicate x) none), ⟨s, log⟩)
      else (.ok (), ⟨s.set e x v, log⟩)) ∧
    ∀ rounds depth a pos w log, eval rounds (depth + 1) a e w = (.ok v, ⟨s, log⟩) →
      eval rounds (depth + 4) (.assign x a pos) e w = (.ok v, ⟨s.update e x v, log⟩) ∧
      eval rounds (depth + 4) (.declare x a pos) e w =
        if s.binds e x then
          (.error (.error (.duplicate x) (Eval.place? (.declare x a pos))), ⟨s, log⟩)
        else (.ok v, ⟨s.set e x v, log⟩) := by
  have htarget := h.target (x := x) he
  obtain ⟨a, ha, -⟩ := htarget.ends
  refine ⟨⟨s.target e x, htarget, fun t' ht' => htarget.unique ht', ?_⟩, fun _ => h.writes he x v,
    fun log => rfl, fun rounds depth a pos w log heval => ⟨eval_assign h he heval pos, ?_⟩⟩
  · rw [Store.update_eq]
    exact h.writes (Store.lt_size_of_getElem? ha) x v
  · cases hx : s.binds e x with
    | true => exact eval_redeclare heval hx pos
    | false => exact eval_declare h he heval hx pos

/-- Two frames in a third one, which lies in the root. One of the two binds a name that the root binds
too. -/
def forkedStore : Store :=
  #[⟨none, [("x", .int 1)], none, none, 0⟩, ⟨some 0, [], none, none, 0⟩,
    ⟨some 1, [("x", .int 2)], none, none, 0⟩, ⟨some 1, [], none, none, 0⟩]

theorem forkedStore_ordered : forkedStore.Ordered := by
  intro f a p ha hp
  match f with
  | 0 =>
    cases ha
    cases hp
  | 1 =>
    cases ha
    cases hp
    decide
  | 2 =>
    cases ha
    cases hp
    decide
  | 3 =>
    cases ha
    cases hp
    decide

/-- An assignment in one of the two goes to the root, and the other does not see it. -/
theorem writes_one_binding_forked :
    forkedStore.Ordered ∧ 3 < forkedStore.size ∧ forkedStore.Target "x" 3 0 ∧
    (forkedStore.update 3 "x" (.int 5)).resolve 1 "x" = .int 5 ∧
    (forkedStore.update 3 "x" (.int 5)).resolve 2 "x" = .int 2 ∧
    eval 1 7 (.assign "x" (.literal (.int 5) none) none) 3 ⟨forkedStore, []⟩ =
      (.ok (.int 5), ⟨forkedStore.update 3 "x" (.int 5), []⟩) := by
  have hsize : 3 < forkedStore.size := by decide
  have hfrom1 : forkedStore.Sees "x" 1 0 := .outwards rfl rfl rfl (.here rfl)
  have htarget : forkedStore.Target "x" 3 0 := ⟨.outwards rfl rfl rfl hfrom1, _, rfl, .inl rfl⟩
  have hfrom2 : ¬ forkedStore.Sees "x" 2 0 := by
    intro hsees
    cases hsees with
    | outwards ha hx _ _ =>
      cases ha
      cases hx
  obtain ⟨⟨t, -, hunique, hwrites⟩, -, -, hevals⟩ :=
    writes_one_binding forkedStore forkedStore_ordered 3 hsize "x" (.int 5)
  obtain rfl : 0 = t := hunique 0 htarget
  refine ⟨forkedStore_ordered, hsize, htarget, hwrites.seen 1 hfrom1, ?_, ?_⟩
  · exact hwrites.unseen 2 (by decide) "x" fun hsees => hfrom2 hsees.2
  · exact (hevals 1 3 (.literal (.int 5) none) none ⟨forkedStore, []⟩ [] rfl).1

end Featherweight
