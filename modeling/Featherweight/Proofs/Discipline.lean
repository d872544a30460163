import Featherweight.Eval
import Featherweight.Proofs.Nodes

/-!
# Featherweight.Proofs.Discipline

Rules that no evaluation breaks, whether it succeeds or fails.

* A `Discipline` says which nodes there may be in code, and which values and frames may be used when
  there are `n` frames.
* `Discipline.Obeyed s` : the frames of `s` that may be used hold, and lie in, what may be used.
* `Discipline.Leads w w'` : from `w` to `w'` the discipline was kept, only such values were printed,
  and every other frame is as it was.
* `eval_keeps` : this is so for every evaluation of code that obeys the discipline.
-/

namespace Featherweight

/-! ## Frames on a chain -/

theorem mem_bindIn {x y : String} {v u : Value} {vars : List (String × Value)}
    (h : (y, u) ∈ bindIn x v vars) : u = v ∨ (y, u) ∈ vars := by
  induction vars with
  | nil =>
    rw [bindIn, List.mem_singleton] at h
    exact .inl (Prod.mk.inj h).2
  | cons b rest ih =>
    obtain ⟨z, t⟩ := b
    by_cases hz : z = x
    · rw [bindIn, if_pos hz] at h
      rcases List.mem_cons.1 h with h | h
      · exact .inl (Prod.mk.inj h).2
      · exact .inr (List.mem_cons_of_mem _ h)
    · rw [bindIn, if_neg hz] at h
      rcases List.mem_cons.1 h with h | h
      · exact .inr (h ▸ List.mem_cons_self)
      · exact (ih h).imp_right (List.mem_cons_of_mem _)

namespace Store

variable {s : Store} {f g : FrameId} {x : String} {v : Value}

/-- What holds of a frame and passes on to parents holds on the whole chain. -/
theorem forall_mem_chain {P : FrameId → Prop}
    (hP : ∀ f a p, P f → s[f]? = some a → a.parent = some p → P p) (hf : P f) :
    ∀ g ∈ s.chain f, P g := by
  have h (n : Nat) (f : FrameId) (hf : P f) : ∀ g ∈ s.chainFrom n f, P g := by
    induction n generalizing f with
    | zero => simp [chainFrom]
    | succ n ih =>
      rw [chainFrom]
      cases ha : s[f]? with
      | none => simp
      | some a =>
        dsimp only
        cases hp : a.parent with
        | none => simpa using hf
        | some p => exact List.forall_mem_cons.2 ⟨hf, ih p (hP f a p hf ha hp)⟩
  exact h (f + 1) f hf

theorem mem_vars_of_get? (h : s.get? f x = some v) : ∃ a, s[f]? = some a ∧ (x, v) ∈ a.vars := by
  obtain ⟨a, ha, hv⟩ := Option.bind_eq_some_iff.1 h
  obtain ⟨before, behind, hvars, -⟩ := List.lookup_eq_some_iff.1 hv
  exact ⟨a, ha, by simp [hvars]⟩

theorem resolve_cases (s : Store) (f : FrameId) (x : String) :
    s.resolve f x = .null ∨ ∃ g ∈ s.chain f, s.get? g x = some (s.resolve f x) := by
  rw [resolve]
  cases h : (s.chain f).findSome? fun g => s.get? g x with
  | none => exact .inl rfl
  | some v => exact .inr (List.exists_of_findSome?_eq_some h)

/-- An assignment goes to a frame of the chain. -/
theorem target_mem (s : Store) (f : FrameId) (x : String) :
    (s.owner? f x).getD (s.root f) ∈ f :: s.chain f := by
  cases h : s.owner? f x with
  | none => exact List.getLastD_mem_cons
  | some g => exact List.mem_cons_of_mem _ (List.mem_of_find?_eq_some h)

end Store

/-! ## Disciplines -/

theorem Op.apply_ne_closure {op : Op} {x y : Value} {params : List String} {body : Expr} {f : FrameId}
    {i : Nat} : op.apply x y ≠ .ok (.closure params body f i) := by
  intro h
  cases x with
  | int a =>
    cases y with
    | int b =>
      simp only [Op.apply, Op.onInts] at h
      split at h <;> first | cases h | (split at h <;> cases h)
    | _ => cases h
  | _ => cases h

structure Discipline where
  node : Expr → Prop
  value : Nat → Value → Prop
  frame : Nat → FrameId → Prop
  /-- There are at least so many frames, and a frame that is added may be used. -/
  base : Nat
  null : ∀ n, value n .null
  apply : ∀ {n : Nat} {op : Op} {x y v : Value},
    value n x → value n y → op.apply x y = .ok v → value n v
  /-- A closure may be used where its frame may be. -/
  closure : ∀ {n : Nat} {params : List String} {body : Expr} {f : FrameId} {i : Nat},
    value n (.closure params body f i) ↔ frame n f
  value_mono : ∀ {n m : Nat} {v : Value}, n ≤ m → value n v → value m v
  frame_mono : ∀ {n m : Nat} {f : FrameId}, n ≤ m → frame n f → frame m f
  fresh : ∀ {n : Nat}, base ≤ n → frame (n + 1) n
  /-- A frame that is there may be used at once or never. -/
  settled : ∀ {n : Nat} {f : FrameId}, f < n → frame (n + 1) f → frame n f

namespace Discipline

/-- Values are told apart by the frames of closures alone. -/
def ofFrames (node : Expr → Prop) (frame : Nat → FrameId → Prop) (base : Nat)
    (mono : ∀ n m f, n ≤ m → frame n f → frame m f) (fresh : ∀ n, base ≤ n → frame (n + 1) n)
    (settled : ∀ n f, f < n → frame (n + 1) f → frame n f) : Discipline where
  node := node
  value n v := ∀ params body f i, v = .closure params body f i → frame n f
  frame := frame
  base := base
  null n params body f i h := by cases h
  apply _ _ h params body f i hv := absurd (hv ▸ h) Op.apply_ne_closure
  closure := ⟨fun h => h _ _ _ _ rfl, fun h _ _ _ _ heq => by cases heq; exact h⟩
  value_mono hn h params body f i hv := mono _ _ f hn (h params body f i hv)
  frame_mono := mono _ _ _
  fresh := fresh _
  settled := settled _ _

variable {D : Discipline} {n m : Nat} {s : Store} {f g : FrameId} {x : String} {v : Value}
  {k : Frame → Frame}

def Admits (D : Discipline) (n : Nat) (v : Value) : Prop := v.All D.node (D.value n)

def Code (D : Discipline) (n : Nat) (e : Expr) : Prop := e.All D.node (D.value n)

theorem Admits.mono (h : D.Admits n v) (hn : n ≤ m) : D.Admits m v :=
  Value.All.mono h (fun _ h => h) fun _ h => D.value_mono hn h

theorem Code.mono {e : Expr} (h : D.Code n e) (hn : n ≤ m) : D.Code m e :=
  Expr.All.mono h (fun _ h => h) fun _ h => D.value_mono hn h

theorem Admits.value (h : D.Admits n v) : D.value n v := by
  cases v <;> first | exact h | exact h.1

theorem admits_null (n : Nat) : D.Admits n .null := D.null n

section OfFrames

variable {node : Expr → Prop} {frame : Nat → FrameId → Prop} {base : Nat}
  {mono : ∀ n m f, n ≤ m → frame n f → frame m f} {fresh : ∀ n, base ≤ n → frame (n + 1) n}
  {settled : ∀ n f, f < n → frame (n + 1) f → frame n f}

theorem forall_values_ofFrames {values : List Value} :
    (∀ u ∈ values, (ofFrames node frame base mono fresh settled).value n u) ↔
      ∀ f, (∃ params body i, .closure params body f i ∈ values) → frame n f := by
  constructor
  · rintro h f ⟨params, body, i, hmem⟩
    exact h _ hmem params body f i rfl
  · rintro h u hu params body f i rfl
    exact h f ⟨params, body, i, hu⟩

theorem ofFrames_admits : (ofFrames node frame base mono fresh settled).Admits n v ↔
    (∀ e ∈ v.nodes, node e) ∧ ∀ f, v.Captures f → frame n f := by
  rw [Admits, Value.all_iff, forall_values_ofFrames]
  rfl

theorem ofFrames_code {e : Expr} : (ofFrames node frame base mono fresh settled).Code n e ↔
    (∀ a ∈ e.nodes, node a) ∧ ∀ f, e.Captures f → frame n f := by
  rw [Code, Expr.all_iff, forall_values_ofFrames]
  rfl

end OfFrames

/-- The results of operators have no code in them. -/
theorem Admits.apply {op : Op} {x y : Value} (hx : D.Admits n x) (hy : D.Admits n y)
    (h : op.apply x y = .ok v) : D.Admits n v := by
  have hv : D.value n v := D.apply hx.value hy.value h
  cases v with
  | closure params body f i => exact absurd h Op.apply_ne_closure
  | _ => exact hv

structure Obeyed (D : Discipline) (s : Store) : Prop where
  base_le : D.base ≤ s.size
  parent : ∀ {i : FrameId} {a : Frame} {p : FrameId},
    s[i]? = some a → D.frame s.size i → a.parent = some p → D.frame i p
  binding : ∀ {i : FrameId} {a : Frame} {x : String} {v : Value},
    s[i]? = some a → D.frame s.size i → (x, v) ∈ a.vars → D.Admits s.size v

theorem Obeyed.chain (h : D.Obeyed s) (hf : D.frame s.size f) :
    ∀ g ∈ s.chain f, D.frame s.size g := by
  refine Store.forall_mem_chain (fun f a p hf ha hp => ?_) hf
  have hlt : f < s.size := (Array.getElem?_eq_some_iff.1 ha).1
  exact D.frame_mono (Nat.le_of_lt hlt) (h.parent ha hf hp)

theorem Obeyed.resolve (h : D.Obeyed s) (hf : D.frame s.size f) (x : String) :
    D.Admits s.size (s.resolve f x) := by
  rcases s.resolve_cases f x with hnull | ⟨g, hg, hv⟩
  · rw [hnull]
    exact admits_null _
  · obtain ⟨a, ha, hmem⟩ := Store.mem_vars_of_get? hv
    exact h.binding ha (h.chain hf g hg) hmem

theorem Obeyed.target (h : D.Obeyed s) (hf : D.frame s.size f) (x : String) :
    D.frame s.size ((s.owner? f x).getD (s.root f)) := by
  rcases List.mem_cons.1 (s.target_mem f x) with ht | ht
  · rw [ht]
    exact hf
  · exact h.chain hf _ ht

theorem Obeyed.modify (h : D.Obeyed s) (hp : ∀ a, (k a).parent = a.parent)
    (hk : ∀ a y u, (y, u) ∈ (k a).vars → D.Admits s.size u ∨ (y, u) ∈ a.vars) :
    D.Obeyed (s.modify f k) := by
  -- A frame that is there afterwards stands for one that was there before.
  have hold {i : FrameId} {b : Frame} (hb : (s.modify f k)[i]? = some b) :
      ∃ a, s[i]? = some a ∧ (b = a ∨ b = k a) := by
    rw [Array.getElem?_modify] at hb
    split at hb
    · obtain ⟨a, ha, rfl⟩ := Option.map_eq_some_iff.1 hb
      exact ⟨a, ha, .inr rfl⟩
    · exact ⟨b, hb, .inl rfl⟩
  refine ⟨by rw [Array.size_modify]; exact h.base_le, ?_, ?_⟩
  · intro i b p hb hi hbp
    rw [Array.size_modify] at hi
    obtain ⟨a, ha, rfl | rfl⟩ := hold hb
    · exact h.parent ha hi hbp
    · exact h.parent ha hi (hp a ▸ hbp)
  · intro i b y u hb hi hu
    rw [Array.size_modify] at hi ⊢
    obtain ⟨a, ha, rfl | rfl⟩ := hold hb
    · exact h.binding ha hi hu
    · rcases hk a y u hu with hu | hu
      · exact hu
      · exact h.binding ha hi hu

theorem Obeyed.set (h : D.Obeyed s) (f : FrameId) (x : String) (hv : D.Admits s.size v) :
    D.Obeyed (s.set f x v) := by
  refine h.modify (fun _ => rfl) fun a y u hu => ?_
  rcases mem_bindIn hu with rfl | hu
  · exact .inl hv
  · exact .inr hu

theorem Obeyed.push (h : D.Obeyed s) (hf : D.frame s.size f) :
    D.Obeyed (s.push (.fresh (some f) none none)) := by
  have hcases {i : FrameId} {b : Frame} (hb : (s.push (.fresh (some f) none none))[i]? = some b)
      (hi : D.frame (s.size + 1) i) : (i = s.size ∧ b = .fresh (some f) none none) ∨
        (s[i]? = some b ∧ D.frame s.size i) := by
    rw [Array.getElem?_push] at hb
    split at hb
    · rename_i heq
      exact .inl ⟨heq, (Option.some.inj hb).symm⟩
    · exact .inr ⟨hb, D.settled (Array.getElem?_eq_some_iff.1 hb).1 hi⟩
  refine ⟨by rw [Array.size_push]; exact Nat.le_succ_of_le h.base_le, ?_, ?_⟩
  · intro i b p hb hi hp
    rw [Array.size_push] at hi
    rcases hcases hb hi with ⟨rfl, rfl⟩ | ⟨hb, hi⟩
    · cases hp
      exact hf
    · exact h.parent hb hi hp
  · intro i b y u hb hi hu
    rw [Array.size_push] at hi ⊢
    rcases hcases hb hi with ⟨rfl, rfl⟩ | ⟨hb, hi⟩
    · cases hu
    · exact (h.binding hb hi hu).mono (Nat.le_succ _)

/-! ## Stretches of an evaluation -/

structure Leads (D : Discipline) (w w' : World) : Prop where
  obeyed : D.Obeyed w'.store
  size_le : w.store.size ≤ w'.store.size
  same : ∀ g, ¬ D.frame w'.store.size g → w'.store[g]? = w.store[g]?
  log : ∃ out, w'.log = out ++ w.log ∧ ∀ entry ∈ out, D.Admits w'.store.size entry.2

theorem Leads.refl {w : World} (h : D.Obeyed w.store) : D.Leads w w :=
  ⟨h, Nat.le_refl _, fun _ _ => rfl, [], rfl, by simp⟩

theorem Leads.trans {w w₁ w₂ : World} (h : D.Leads w w₁) (h' : D.Leads w₁ w₂) : D.Leads w w₂ where
  obeyed := h'.obeyed
  size_le := Nat.le_trans h.size_le h'.size_le
  same g hg := by
    have hg₁ : ¬ D.frame w₁.store.size g := fun hf => hg (D.frame_mono h'.size_le hf)
    rw [h'.same g hg, h.same g hg₁]
  log := by
    obtain ⟨out, hlog, hout⟩ := h.log
    obtain ⟨out', hlog', hout'⟩ := h'.log
    refine ⟨out' ++ out, by rw [hlog', hlog, List.append_assoc], ?_⟩
    intro entry hentry
    rcases List.mem_append.1 hentry with hentry | hentry
    · exact hout' entry hentry
    · exact (hout entry hentry).mono h'.size_le

theorem Leads.modify {w : World} (h : D.Obeyed (w.store.modify f k)) (hf : D.frame w.store.size f) :
    D.Leads w { w with store := w.store.modify f k } where
  obeyed := h
  size_le := by simp
  same g hg := by
    rw [Array.size_modify] at hg
    rw [Array.getElem?_modify, if_neg]
    rintro rfl
    exact hg hf
  log := ⟨[], rfl, by simp⟩

end Discipline

namespace Eval

variable {D : Discipline} {n m : Nat} {f : FrameId} {α β : Type} {Q : Nat → α → Prop}
  {R : Nat → β → Prop}

/-- Where the discipline is obeyed and there are `n` frames or more, the computation keeps it, and a
result satisfies `Q` of the number of frames there are then. -/
def Keeps (D : Discipline) (n : Nat) (Q : Nat → α → Prop) (c : Eval α) : Prop :=
  ∀ w, D.Obeyed w.store → n ≤ w.store.size →
    D.Leads w (c w).2 ∧ ∀ a, (c w).1 = .ok a → Q (c w).2.store.size a

theorem Keeps.later {c : Eval α} (h : Keeps D n Q c) (hn : n ≤ m) : Keeps D m Q c :=
  fun w hw hm => h w hw (Nat.le_trans hn hm)

theorem Keeps.leads {c : Eval α} {w w₁ : World} {r : Except Fault α} (h : Keeps D n Q c)
    (hw : D.Obeyed w.store) (hn : n ≤ w.store.size) (hr : c w = (r, w₁)) :
    D.Leads w w₁ ∧ ∀ a, r = .ok a → Q w₁.store.size a := by
  have hc := h w hw hn
  rw [hr] at hc
  exact hc

theorem keeps_pure {a : α} (h : ∀ m, n ≤ m → Q m a) : Keeps D n Q (pure a) := by
  intro w hw hn
  refine ⟨.refl hw, fun b hb => ?_⟩
  cases hb
  exact h _ hn

theorem keeps_fail (fault : Fault) : Keeps D n Q (fail fault) :=
  fun _ hw _ => ⟨.refl hw, nofun⟩

theorem Keeps.bind {c : Eval α} {k : α → Eval β} (h : Keeps D n Q c)
    (hk : ∀ m a, n ≤ m → Q m a → Keeps D m R (k a)) : Keeps D n R (c >>= k) := by
  intro w hw hn
  obtain ⟨hlead, hok⟩ := h w hw hn
  rw [bind_apply]
  rcases hr : c w with ⟨r, w₁⟩
  rw [hr] at hlead hok
  cases r with
  | ok a =>
    have hm : n ≤ w₁.store.size := Nat.le_trans hn hlead.size_le
    obtain ⟨hlead', hok'⟩ := hk _ a hm (hok a rfl) w₁ hlead.obeyed (Nat.le_refl _)
    exact ⟨hlead.trans hlead', hok'⟩
  | error fault => exact ⟨hlead, nofun⟩

theorem Keeps.locate {Q : Nat → Value → Prop} {c : Eval Value} (h : Keeps D n Q c) (e : Expr) :
    Keeps D n Q (locate e c) := by
  intro w hw hn
  obtain ⟨hworld, hval⟩ := locate_cases e c w
  rw [hworld]
  exact ⟨(h w hw hn).1, fun v hv => (h w hw hn).2 v ((hval v).1 hv)⟩

theorem Keeps.ite {b : Prop} [Decidable b] {c d : Eval α} (hc : Keeps D n Q c)
    (hd : Keeps D n Q d) : Keeps D n Q (if b then c else d) := by
  split
  · exact hc
  · exact hd

theorem keeps_resolve (hf : D.frame n f) (x : String) : Keeps D n D.Admits (resolve f x) := by
  intro w hw hn
  refine ⟨.refl hw, fun v hv => ?_⟩
  cases hv
  exact hw.resolve (D.frame_mono hn hf) x

theorem keeps_apply {op : Op} {x y : Value} (hx : D.Admits n x) (hy : D.Admits n y) :
    Keeps D n D.Admits (ofExcept (op.apply x y)) := by
  cases h : op.apply x y with
  | ok v => exact keeps_pure fun m hm => (hx.mono hm).apply (hy.mono hm) h
  | error cause => exact keeps_fail _

theorem keeps_asBool (test : Test) (v : Value) :
    Keeps D n (fun _ _ => True) (asBool test v) := by
  cases v with
  | bool b => exact keeps_pure fun _ _ => trivial
  | _ => exact keeps_fail _

section Writing

variable {v : Value} (hf : D.frame n f) (hv : D.Admits n v)
include hf hv

theorem keeps_update (x : String) : Keeps D n (fun _ _ => True) (update f x v) := by
  intro w hw hn
  have htarget := hw.target (D.frame_mono hn hf) x
  exact ⟨.modify (hw.set _ x (hv.mono hn)) htarget, fun _ _ => trivial⟩

theorem keeps_create (x : String) : Keeps D n (fun _ _ => True) (create f x v) := by
  intro w hw hn
  rw [create]
  split
  · exact ⟨.refl hw, fun _ _ => trivial⟩
  · exact ⟨.modify (hw.set _ x (hv.mono hn)) (D.frame_mono hn hf), fun _ _ => trivial⟩

omit hf in
theorem keeps_emit : Keeps D n (fun _ _ => True) (emit f v) := by
  intro w hw hn
  refine ⟨⟨hw, Nat.le_refl _, fun _ _ => rfl, [(w.store.sink? f, v)], rfl, ?_⟩, fun _ _ => trivial⟩
  intro entry hentry
  rw [List.mem_singleton.1 hentry]
  exact hv.mono hn

end Writing

theorem keeps_makeClosure (hf : D.frame n f) {body : Expr} (hb : D.Code n body)
    (params : List String) : Keeps D n D.Admits (makeClosure params body f) := by
  intro w hw hn
  have hf' := D.frame_mono hn hf
  refine ⟨.modify (hw.modify (fun _ => rfl) fun _ _ _ hu => .inr hu) hf', fun v hv => ?_⟩
  cases hv
  refine ⟨D.closure.2 ?_, (hb.mono hn).mono ?_⟩
  · simpa [makeClosure] using hf'
  · simp [makeClosure]

theorem keeps_newFrame (hf : D.frame n f) :
    Keeps D n D.frame (newFrame (.fresh (some f) none none)) := by
  intro w hw hn
  have hsize : (w.store.push (.fresh (some f) none none)).size = w.store.size + 1 :=
    Array.size_push _
  refine ⟨⟨hw.push (D.frame_mono hn hf), ?_, ?_, [], rfl, by simp⟩, ?_⟩
  · show w.store.size ≤ (w.store.push _).size
    omega
  · intro g hg
    show (w.store.push _)[g]? = _
    rw [Array.getElem?_push, if_neg]
    rintro rfl
    exact hg (hsize ▸ D.fresh hw.base_le)
  · intro a ha
    cases ha
    exact hsize ▸ D.fresh hw.base_le

theorem keeps_bindParams (hf : D.frame n f) (xs : List String) {vs : List Value}
    (hvs : ∀ v ∈ vs, D.Admits n v) : Keeps D n (fun _ _ => True) (bindParams f xs vs) := by
  induction xs generalizing vs with
  | nil => exact keeps_pure fun _ _ => trivial
  | cons x xs ih =>
    cases vs with
    | nil => exact keeps_pure fun _ _ => trivial
    | cons v vs =>
      obtain ⟨hv, hvs⟩ := List.forall_mem_cons.1 hvs
      exact (keeps_create hf hv x).bind fun m _ hm _ => (ih hvs).later hm

theorem keeps_whileTrue {test : Eval Bool} {body : Eval Value}
    (ht : Keeps D n (fun _ _ => True) test) (hb : Keeps D n D.Admits body) (rounds : Nat) :
    Keeps D n D.Admits (whileTrue test body rounds) := by
  induction rounds with
  | zero => exact keeps_fail _
  | succ rounds ih =>
    refine ht.bind fun m _ hm _ => .ite ?_ (keeps_pure fun _ _ => Discipline.admits_null _)
    exact (hb.later hm).bind fun m' _ hm' _ => ih.later (Nat.le_trans hm hm')

theorem keeps_runAll {run : Expr → Eval Value} {es : List Expr}
    (h : ∀ e ∈ es, Keeps D n D.Admits (run e)) {last : Value} (hlast : D.Admits n last) :
    Keeps D n D.Admits (runAll run last es) := by
  induction es generalizing n last with
  | nil => exact keeps_pure fun m hm => hlast.mono hm
  | cons e es ih =>
    obtain ⟨he, hes⟩ := List.forall_mem_cons.1 h
    exact he.bind fun m v hm hv => ih (fun e he => (hes e he).later hm) hv

theorem keeps_evalArgs {run : Expr → Eval Value} {es : List Expr}
    (h : ∀ e ∈ es, Keeps D n D.Admits (run e)) :
    Keeps D n (fun m vs => ∀ v ∈ vs, D.Admits m v) (evalArgs run es) := by
  induction es generalizing n with
  | nil => exact keeps_pure fun _ _ => by simp
  | cons e es ih =>
    obtain ⟨he, hes⟩ := List.forall_mem_cons.1 h
    refine he.bind fun m v hm hv => ?_
    refine (ih fun e he => (hes e he).later hm).bind fun m' vs hm' hvs => keeps_pure fun k hk => ?_
    exact List.forall_mem_cons.2 ⟨hv.mono (Nat.le_trans hm' hk), fun u hu => (hvs u hu).mono hk⟩

theorem keeps_callWith {run : Expr → FrameId → Eval Value}
    (h : ∀ m e g, D.Code m e → D.frame m g → Keeps D m D.Admits (run e g)) {v : Value}
    (hv : D.Admits n v) {args : List Value} (hargs : ∀ a ∈ args, D.Admits n a) :
    Keeps D n D.Admits (callWith run v args) := by
  cases v with
  | closure params body frame i =>
    have hframe : D.frame n frame := D.closure.1 hv.1
    refine .ite ?_ (keeps_fail _)
    refine (keeps_newFrame hframe).bind fun m inner hm hinner => ?_
    refine (keeps_bindParams hinner params fun a ha => (hargs a ha).mono hm).bind fun m' _ hm' _ => ?_
    exact h m' body inner (Discipline.Code.mono hv.2 (Nat.le_trans hm hm')) (D.frame_mono hm' hinner)
  | _ => exact keeps_fail _

end Eval

open Eval Discipline in
theorem eval_keeps {D : Discipline} {n : Nat} {e : Expr} {f : FrameId} (rounds depth : Nat)
    (he : D.Code n e) (hf : D.frame n f) : Keeps D n D.Admits (eval rounds depth e f) := by
  induction depth using depth_induction generalizing n e f with
  | short depth h =>
    rw [eval_of_lt h]
    exact keeps_fail _
  | node depth inner ih =>
    refine Keeps.locate ?_ e
    cases e with
    | literal v pos => exact keeps_pure fun m hm => Admits.mono he.2 hm
    | var x pos => exact keeps_resolve hf x
    | print a pos =>
      refine (ih he.2 hf).bind fun m v hm hv => (keeps_emit hv).bind fun m' _ hm' _ => ?_
      exact keeps_pure fun k hk => hv.mono (Nat.le_trans hm' hk)
    | binary op a b pos =>
      refine (ih he.2.1 hf).bind fun m x hm hx => ?_
      refine (ih (Code.mono he.2.2 hm) (D.frame_mono hm hf)).bind fun m' y hm' hy => ?_
      exact keeps_apply (hx.mono hm') hy
    | branch test yes no pos =>
      refine (ih he.2.1 hf).bind fun m v hm _ => (keeps_asBool _ v).bind fun m' _ hm' _ => ?_
      have hle := Nat.le_trans hm hm'
      have hf' := D.frame_mono hle hf
      exact .ite (ih (Code.mono he.2.2.1 hle) hf') (ih (Code.mono he.2.2.2 hle) hf')
    | loop test body pos =>
      refine keeps_whileTrue ?_ (ih he.2.2 hf) rounds
      exact (ih he.2.1 hf).bind fun _ v _ _ => keeps_asBool _ v
    | seq a b pos =>
      exact keeps_runAll (fun s hs => ih (he.leaves s hs) hf) (admits_null n)
    | declare x init pos =>
      refine (ih he.2 hf).bind fun m v hm hv => ?_
      refine (keeps_create (D.frame_mono hm hf) hv x).bind fun m' _ hm' _ => ?_
      exact keeps_resolve (D.frame_mono (Nat.le_trans hm hm') hf) x
    | assign x value pos =>
      refine (ih he.2 hf).bind fun m v hm hv => ?_
      refine (keeps_update (D.frame_mono hm hf) hv x).bind fun m' _ hm' _ => ?_
      exact keeps_resolve (D.frame_mono (Nat.le_trans hm hm') hf) x
    | function params body pos => exact keeps_makeClosure hf he.2 params
    | call callee args pos =>
      refine (ih he.2.1 hf).bind fun m v hm hv => ?_
      cases v with
      | closure params body frame i =>
        have hargs : ∀ a ∈ args, Keeps D m D.Admits (eval rounds depth a f) := fun a ha =>
          (inner ((Expr.allIn_iff_forall args).1 he.2.2 a ha) hf).later hm
        refine (keeps_evalArgs hargs).bind fun m' vs hm' hvs => ?_
        exact keeps_callWith (fun m e g he hg => inner he hg) (hv.mono hm') hvs
      | _ => exact keeps_fail _
    | blank => exact keeps_fail _
    | host h => exact keeps_fail _

end Featherweight
