import Featherweight.Proofs.Calls
import Featherweight.Proofs.Discipline

/-!
# Featherweight.Proofs.Names

Which names a frame may hold.

* `Expr.declared` : the names declared in a tree, but not in a function inside it.
* `Store.Gains may s s'` : each frame of `s` keeps its parent and its names, and the names it gains are
  names it may gain.
* `Call.Stands c s` : the frame of a call binds its parameters in order, and then names declared in the
  body.
* `eval_names` : what every frame, old or new, may hold after an evaluation.
-/

namespace Featherweight

/-! ## Names in code -/

mutual

def Expr.declared : Expr → List String
  | .literal _ _ | .var _ _ | .function _ _ _ | .blank | .host _ => []
  | .print a _ | .assign _ a _ => a.declared
  | .binary _ a b _ | .loop a b _ | .seq a b _ => a.declared ++ b.declared
  | .branch a b c _ => a.declared ++ (b.declared ++ c.declared)
  | .declare x a _ => x :: a.declared
  | .call a args _ => a.declared ++ Expr.declaredIn args

def Expr.declaredIn : List Expr → List String
  | [] => []
  | e :: es => e.declared ++ Expr.declaredIn es

end

namespace Expr

theorem declared_subset_declaredIn {e : Expr} {es : List Expr} (h : e ∈ es) :
    e.declared ⊆ declaredIn es := by
  induction es with
  | nil => cases h
  | cons a es ih =>
    rw [declaredIn]
    rcases List.mem_cons.1 h with rfl | h
    · exact List.subset_append_left _ _
    · exact List.subset_append_of_subset_right _ (ih h)

theorem declared_leaves {e s : Expr} (h : s ∈ e.leaves) : s.declared ⊆ e.declared := by
  cases e with
  | seq a b pos =>
    rw [leaves_seq, List.mem_append] at h
    rw [declared]
    rcases h with h | h
    · exact List.subset_append_of_subset_left _ (declared_leaves h)
    · exact List.subset_append_of_subset_right _ (declared_leaves h)
  | _ =>
    rw [leaves_eq_inOrder, inOrder, List.mem_singleton] at h
    · rw [h]
      exact List.Subset.refl _
    · simp

end Expr

def Expr.Assigns (e : Expr) (x : String) : Prop := ∃ a pos, .assign x a pos ∈ e.nodes

def Value.Assigns (v : Value) (x : String) : Prop := ∃ a pos, .assign x a pos ∈ v.nodes

/-- A name is assigned in the code of a closure in some frame. -/
def Store.Assigns (s : Store) (x : String) : Prop :=
  ∃ (f : FrameId) (a : Frame) (y : String) (v : Value), s[f]? = some a ∧ (y, v) ∈ a.vars ∧ v.Assigns x

/-! ## Roots -/

/-- Frames lie in older ones, and closures capture frames that are there. -/
structure Store.Anchored (s : Store) : Prop where
  parent : ∀ {f : FrameId} {a : Frame} {p : FrameId}, s[f]? = some a → a.parent = some p → p < f
  captured : ∀ {f : FrameId} {a : Frame} {x : String} {v : Value} {g : FrameId},
    s[f]? = some a → (x, v) ∈ a.vars → v.Captures g → g < s.size

namespace Discipline

variable {A : String → Prop} {s : Store} {f : FrameId}

/-- Assign to names in `A` only, and use frames that are there. -/
def assigning (A : String → Prop) : Discipline :=
  ofFrames (fun e => ∀ x a pos, e = .assign x a pos → A x) (fun n f => f < n) 0
    (fun _ _ _ hn hf => Nat.lt_of_lt_of_le hf hn) (fun n _ => Nat.lt_succ_self n) (fun _ _ hf _ => hf)

theorem assigning_obeyed (hs : s.Anchored) (hA : ∀ x, s.Assigns x → A x) : (assigning A).Obeyed s where
  base_le := Nat.zero_le _
  parent ha _ hp := hs.parent ha hp
  binding {i a y v} ha _ hv := by
    refine ofFrames_admits.2 ⟨?_, fun g hg => hs.captured ha hv hg⟩
    rintro _ hmem x b pos rfl
    exact hA x ⟨i, a, y, v, ha, hv, b, pos, hmem⟩

/-- The last frame of a chain is a root, since older frames come to an end. -/
theorem Obeyed.parent_root (h : (assigning A).Obeyed s) (hf : f < s.size) {a : Frame}
    (ha : s[s.root f]? = some a) : a.parent = none := by
  have hlast (n : Nat) (f d : FrameId) (hn : f < n) (hf : f < s.size)
      (ha : s[(s.chainFrom n f).getLastD d]? = some a) : a.parent = none := by
    induction n generalizing f d with
    | zero => exact absurd hn (Nat.not_lt_zero f)
    | succ n ih =>
      have hb : s[f]? = some s[f] := Array.getElem?_eq_getElem hf
      rw [Store.chainFrom, hb] at ha
      dsimp only at ha
      cases hp : s[f].parent with
      | none =>
        rw [hp] at ha
        have hab : s[f] = a := Option.some.inj (hb.symm.trans ha)
        rw [← hab, hp]
      | some p =>
        rw [hp, List.getLastD_cons] at ha
        have hlt : p < f := h.parent hb hf hp
        exact ih p f (Nat.lt_of_lt_of_le hlt (Nat.lt_succ_iff.1 hn)) (Nat.lt_trans hlt hf) ha
  exact hlast (f + 1) f f (Nat.lt_succ_self f) hf ha

end Discipline

/-! ## Names gained -/

theorem Frame.names_set (a : Frame) (x : String) (v : Value) :
    (a.set x v).names = if x ∈ a.names then a.names else a.names ++ [x] :=
  map_fst_bindIn x v a.vars

namespace Store

variable {may may' : FrameId → Option FrameId → String → Prop} {s t u : Store} {f : FrameId}
  {x : String}

theorem binds_iff : s.binds f x = true ↔ ∃ a, s[f]? = some a ∧ x ∈ a.names := by
  have hlookup (a : Frame) : (a.get? x).isSome = true ↔ x ∈ a.names := by
    rw [Frame.get?, List.lookup_isSome_iff, Frame.names, List.mem_map]
    exact exists_congr fun p => and_congr_right fun _ => beq_iff_eq.trans eq_comm
  rw [binds, get?]
  cases s[f]? with
  | none => simp
  | some a => simpa using hlookup a

/-- What a frame may gain depends on whether it has a parent. -/
def Gains (may : FrameId → Option FrameId → String → Prop) (s s' : Store) : Prop :=
  ∀ (g : FrameId) (a : Frame), s[g]? = some a → ∃ b new, s'[g]? = some b ∧ b.parent = a.parent ∧
    b.names = a.names ++ new ∧ ∀ x ∈ new, may g a.parent x

theorem gains_of_same (h : ∀ (g : FrameId) (a : Frame), s[g]? = some a → t[g]? = some a) :
    Gains may s t :=
  fun g a ha => ⟨a, [], h g a ha, rfl, (List.append_nil _).symm, by simp⟩

theorem Gains.refl (s : Store) : s.Gains may s := gains_of_same fun _ _ h => h

theorem Gains.trans (h : Gains may s t) (h' : Gains may t u) : Gains may s u := by
  intro g a ha
  obtain ⟨b, new, hb, hparent, hnames, hnew⟩ := h g a ha
  obtain ⟨c, more, hc, hparent', hnames', hmore⟩ := h' g b hb
  refine ⟨c, new ++ more, hc, hparent'.trans hparent, ?_, ?_⟩
  · rw [hnames', hnames, List.append_assoc]
  · rw [hparent] at hmore
    exact List.forall_mem_append.2 ⟨hnew, hmore⟩

/-- The frames that were the same at an earlier time may have been allowed less. -/
theorem Gains.since (h : Gains may t u)
    (hsame : ∀ (g : FrameId) (a : Frame), s[g]? = some a → t[g]? = some a)
    (hmay : ∀ (g : FrameId) (a : Frame) (x : String), s[g]? = some a → may g a.parent x →
      may' g a.parent x) : Gains may' s u := by
  intro g a ha
  obtain ⟨b, new, hb, hparent, hnames, hnew⟩ := h g a (hsame g a ha)
  exact ⟨b, new, hb, hparent, hnames, fun x hx => hmay g a x ha (hnew x hx)⟩

theorem gains_modify {k : Frame → Frame} (hparent : ∀ a, (k a).parent = a.parent)
    (hk : ∀ a, s[f]? = some a → ∃ new, (k a).names = a.names ++ new ∧ ∀ x ∈ new, may f a.parent x) :
    Gains may s (s.modify f k) := by
  intro g a ha
  rw [Array.getElem?_modify, ha]
  split
  · rename_i heq
    subst heq
    obtain ⟨new, hnames, hnew⟩ := hk a ha
    exact ⟨k a, new, rfl, hparent a, hnames, hnew⟩
  · exact ⟨a, [], rfl, rfl, (List.append_nil _).symm, by simp⟩

theorem gains_set {v : Value} (h : ∀ a, s[f]? = some a → x ∉ a.names → may f a.parent x) :
    Gains may s (s.set f x v) := by
  refine gains_modify (fun _ => rfl) fun a ha => ?_
  rw [Frame.names_set]
  split
  · exact ⟨[], (List.append_nil _).symm, by simp⟩
  · rename_i hx
    exact ⟨[x], rfl, by simpa using h a ha hx⟩

end Store

/-! ## Calls and computations -/

/-- The frame of a call lies in the one that the closure captured. If the body was run it binds all
parameters, and besides them only names declared in the body; if it was not, it binds only the
parameters before one that occurs twice. -/
def Call.Stands (c : Call) (s : Store) : Prop :=
  ∃ a, s[c.frame]? = some a ∧ a.parent = some c.outer ∧
    if c.entered then ∃ locals, a.names = c.params ++ locals ∧ ∀ x ∈ locals, x ∈ c.body.declared
    else a.names <+: c.params

/-- A frame gains names declared in the code that runs in it, and a root those that are assigned. -/
def MayGain (A : String → Prop) (f : FrameId) (names : List String) (g : FrameId)
    (outer : Option FrameId) (x : String) : Prop :=
  (g = f ∧ x ∈ names) ∨ (outer = none ∧ A x)

/-- The new frames are those of the calls, in order. -/
structure Accounts (calls : List Call) (s s' : Store) : Prop where
  size : s'.size = s.size + calls.length
  frames : calls.map Call.frame = List.range' s.size calls.length
  stands : ∀ c ∈ calls, c.Stands s'

section Tracks

variable {A : String → Prop} {f : FrameId} {names names' : List String} {s t u : Store}

theorem MayGain.mono (hnames : names ⊆ names') {g : FrameId} {outer : Option FrameId} {x : String}
    (h : MayGain A f names g outer x) : MayGain A f names' g outer x :=
  h.imp_left fun ⟨hg, hx⟩ => ⟨hg, hnames hx⟩

theorem accounts_nil (h : t.size = s.size) : Accounts [] s t := ⟨h, rfl, by simp⟩

theorem Call.Stands.later {c : Call} (hc : c.Stands s) (h : s.Gains (MayGain A f names) t)
    (hne : c.frame ≠ f) : c.Stands t := by
  obtain ⟨a, ha, hparent, hnames⟩ := hc
  obtain ⟨b, new, hb, hparent', hnames', hnew⟩ := h c.frame a ha
  -- The frame is neither the one where code runs now nor a root, so it gains nothing.
  have hnil : new = [] := by
    refine List.eq_nil_iff_forall_not_mem.2 fun x hx => ?_
    rcases hnew x hx with ⟨heq, -⟩ | ⟨hroot, -⟩
    · exact hne heq
    · rw [hparent] at hroot
      cases hroot
  rw [hnil, List.append_nil] at hnames'
  exact ⟨b, hb, hparent'.trans hparent, by rw [hnames']; exact hnames⟩

theorem Accounts.append {l l' : List Call} (h : Accounts l s t) (h' : Accounts l' t u)
    (hgains : t.Gains (MayGain A f names) u) (hf : f < s.size) : Accounts (l ++ l') s u where
  size := by rw [h'.size, h.size, List.length_append, Nat.add_assoc]
  frames := by
    rw [List.map_append, h.frames, h'.frames, h.size, List.range'_append_1, List.length_append]
  stands := by
    refine List.forall_mem_append.2 ⟨fun c hc => ?_, h'.stands⟩
    have hmem : c.frame ∈ List.range' s.size l.length := h.frames ▸ List.mem_map_of_mem hc
    have hge : s.size ≤ c.frame := (List.mem_range'_1.1 hmem).1
    exact (h.stands c hc).later hgains (Nat.ne_of_gt (Nat.lt_of_lt_of_le hf hge))

theorem Accounts.cons {c : Call} {l : List Call} (h : Accounts l t u) (hc : c.Stands u)
    (hframe : c.frame = s.size) (hsize : t.size = s.size + 1) : Accounts (c :: l) s u where
  size := by
    rw [h.size, hsize, List.length_cons]
    omega
  frames := by rw [List.map_cons, h.frames, hsize, hframe, List.length_cons, List.range'_succ]
  stands := List.forall_mem_cons.2 ⟨hc, h.stands⟩

end Tracks

namespace Eval

open Discipline

variable {A : String → Prop} {n m : Nat} {f : FrameId} {names names' : List String} {α β : Type}
  {Q : Nat → α → Prop}

/-- Where assignments are to names in `A` and there are `n` frames or more, the computation, done for
code in frame `f` that declares the given names, makes the calls of the ledger. -/
def Tracks (A : String → Prop) (f : FrameId) (names : List String) (n : Nat) (c : Eval α)
    (l : Ledger) : Prop :=
  ∀ w, (assigning A).Obeyed w.store → n ≤ w.store.size →
    w.store.Gains (MayGain A f names) (c w).2.store ∧ Accounts (l w) w.store (c w).2.store

theorem Tracks.later {c : Eval α} {l : Ledger} (h : Tracks A f names n c l) (hn : n ≤ m) :
    Tracks A f names m c l :=
  fun w hw hm => h w hw (Nat.le_trans hn hm)

theorem Tracks.mono {c : Eval α} {l : Ledger} (h : Tracks A f names n c l) (hnames : names ⊆ names') :
    Tracks A f names' n c l :=
  fun w hw hn => (h w hw hn).imp_left fun hg => hg.since (fun _ _ h => h) fun _ _ _ _ => MayGain.mono hnames

/-- The store is as before. -/
theorem tracks_of_store_eq {c : Eval α} (h : ∀ w, (c w).2.store = w.store) :
    Tracks A f names n c .empty := by
  intro w _ _
  rw [h w]
  exact ⟨.refl _, accounts_nil rfl⟩

theorem Tracks.bind {c : Eval α} {k : α → Eval β} {l : Ledger} {l' : α → Ledger}
    (h : Tracks A f names n c l) (hc : Keeps (assigning A) n Q c) (hf : f < n)
    (hk : ∀ m a, n ≤ m → Q m a → Tracks A f names m (k a) (l' a)) :
    Tracks A f names n (c >>= k) (l.andThen c l') := by
  intro w hw hn
  obtain ⟨hgains, haccounts⟩ := h w hw hn
  obtain ⟨hlead, hok⟩ := hc w hw hn
  rw [bind_apply, Ledger.andThen]
  rcases hr : c w with ⟨r, w₁⟩
  rw [hr] at hgains haccounts hlead hok
  cases r with
  | ok a =>
    have hm : n ≤ w₁.store.size := Nat.le_trans hn hlead.size_le
    obtain ⟨hgains', haccounts'⟩ := hk _ a hm (hok a rfl) w₁ hlead.obeyed (Nat.le_refl _)
    exact ⟨hgains.trans hgains', haccounts.append haccounts' hgains' (Nat.lt_of_lt_of_le hf hn)⟩
  | error fault => exact ⟨hgains, by rw [List.append_nil]; exact haccounts⟩

/-- What follows makes no calls. -/
theorem Tracks.bind_empty {c : Eval α} {k : α → Eval β} {l : Ledger} (h : Tracks A f names n c l)
    (hc : Keeps (assigning A) n Q c) (hf : f < n)
    (hk : ∀ m a, n ≤ m → Q m a → Tracks A f names m (k a) .empty) :
    Tracks A f names n (c >>= k) l := by
  have hbind := h.bind hc hf hk
  rwa [Ledger.andThen_empty] at hbind

theorem Tracks.locate {c : Eval Value} {l : Ledger} (h : Tracks A f names n c l) (e : Expr) :
    Tracks A f names n (locate e c) l := by
  intro w hw hn
  rw [(locate_cases e c w).1]
  exact h w hw hn

theorem Tracks.ite {b : Prop} [Decidable b] {c d : Eval α} {l k : Ledger}
    (hc : Tracks A f names n c l) (hd : Tracks A f names n d k) :
    Tracks A f names n (if b then c else d) (if b then l else k) := by
  split
  · exact hc
  · exact hd

theorem tracks_pure (a : α) : Tracks A f names n (pure a) .empty := tracks_of_store_eq fun _ => rfl

theorem tracks_fail (fault : Fault) : Tracks A f names n (fail fault : Eval α) .empty :=
  tracks_of_store_eq fun _ => rfl

theorem tracks_resolve (g : FrameId) (x : String) : Tracks A f names n (resolve g x) .empty :=
  tracks_of_store_eq fun _ => rfl

theorem tracks_emit (g : FrameId) (v : Value) : Tracks A f names n (emit g v) .empty :=
  tracks_of_store_eq fun _ => rfl

theorem tracks_ofExcept (r : Except Cause α) : Tracks A f names n (ofExcept r) .empty := by
  cases r with
  | ok a => exact tracks_pure a
  | error cause => exact tracks_fail _

theorem tracks_asBool (test : Test) (v : Value) : Tracks A f names n (asBool test v) .empty := by
  cases v with
  | bool b => exact tracks_pure b
  | _ => exact tracks_fail _

theorem tracks_makeClosure (params : List String) (body : Expr) (g : FrameId) :
    Tracks A f names n (makeClosure params body g) .empty := by
  intro w _ _
  refine ⟨Store.gains_modify (fun _ => rfl) fun a _ => ?_, accounts_nil (Array.size_modify ..)⟩
  exact ⟨[], (List.append_nil _).symm, by simp⟩

theorem tracks_create {x : String} (hx : x ∈ names) (v : Value) :
    Tracks A f names n (create f x v) .empty := by
  intro w _ _
  rw [create]
  split
  · exact ⟨.refl _, accounts_nil rfl⟩
  · exact ⟨Store.gains_set fun _ _ _ => .inl ⟨rfl, hx⟩, accounts_nil (Store.size_set ..)⟩

theorem tracks_update (hf : f < n) {x : String} (hx : A x) (v : Value) :
    Tracks A f names n (update f x v) .empty := by
  intro w hw hn
  refine ⟨Store.gains_set fun a ha hnew => .inr ⟨?_, hx⟩, accounts_nil (Store.size_set ..)⟩
  cases howner : w.store.owner? f x with
  | none =>
    rw [howner] at ha
    exact hw.parent_root (Nat.lt_of_lt_of_le hf hn) ha
  | some g =>
    -- The owner binds the name already.
    rw [howner] at ha
    have hbinds : w.store.binds g x = true := List.find?_some (p := fun g => w.store.binds g x) howner
    obtain ⟨b, hb, hmem⟩ := Store.binds_iff.1 hbinds
    have hab : b = a := Option.some.inj (hb.symm.trans ha)
    exact absurd (hab ▸ hmem) hnew

theorem tracks_whileTrue {test : Eval Bool} {body : Eval Value} {inTest inBody : Ledger}
    (ht : Tracks A f names n test inTest) (ht' : Keeps (assigning A) n (fun _ _ => True) test)
    (hb : Tracks A f names n body inBody)
    (hb' : Keeps (assigning A) n (assigning A).Admits body) (hf : f < n) (rounds : Nat) :
    Tracks A f names n (whileTrue test body rounds) (.whileTrue test inTest body inBody rounds) := by
  induction rounds with
  | zero => exact tracks_fail _
  | succ rounds ih =>
    refine ht.bind ht' hf fun m _ hm _ => .ite ?_ (tracks_pure _)
    refine (hb.later hm).bind (hb'.later hm) (Nat.lt_of_lt_of_le hf hm) fun m' _ hm' _ => ?_
    exact ih.later (Nat.le_trans hm hm')

section InTurn

variable {run : Expr → Eval Value} {inTree : Expr → Ledger} {es : List Expr}

theorem tracks_runAll (h : ∀ e ∈ es, Tracks A f names n (run e) (inTree e) ∧
      Keeps (assigning A) n (assigning A).Admits (run e)) (hf : f < n) (last : Value) :
    Tracks A f names n (runAll run last es) (.inTurn run inTree es) := by
  induction es generalizing n last with
  | nil => exact tracks_pure last
  | cons e es ih =>
    obtain ⟨⟨he, he'⟩, hes⟩ := List.forall_mem_cons.1 h
    refine he.bind he' hf fun m v hm _ => ih (fun e he => ?_) (Nat.lt_of_lt_of_le hf hm) v
    exact (hes e he).imp (·.later hm) (·.later hm)

theorem tracks_evalArgs (h : ∀ e ∈ es, Tracks A f names n (run e) (inTree e) ∧
      Keeps (assigning A) n (assigning A).Admits (run e)) (hf : f < n) :
    Tracks A f names n (evalArgs run es) (.inTurn run inTree es) := by
  induction es generalizing n with
  | nil => exact tracks_pure []
  | cons e es ih =>
    obtain ⟨⟨he, he'⟩, hes⟩ := List.forall_mem_cons.1 h
    refine he.bind he' hf fun m v hm _ => ?_
    have hes' : ∀ e ∈ es, Tracks A f names m (run e) (inTree e) ∧
        Keeps (assigning A) m (assigning A).Admits (run e) :=
      fun e he => (hes e he).imp (·.later hm) (·.later hm)
    have hf' : f < m := Nat.lt_of_lt_of_le hf hm
    exact (ih hes' hf').bind_empty (keeps_evalArgs fun e he => (hes' e he).2) hf' fun _ vs _ _ =>
      tracks_pure (v :: vs)

end InTurn

/-- Parameters are bound in order, until one is bound already; other frames stay as they are. -/
theorem bindParams_names {xs : List String} {vs : List Value} (hlen : vs.length = xs.length)
    {w : World} {a : Frame} (ha : w.store[f]? = some a) :
    (∀ g, g ≠ f → (bindParams f xs vs w).2.store[g]? = w.store[g]?) ∧
    (bindParams f xs vs w).2.store.size = w.store.size ∧
    ∃ b bound, (bindParams f xs vs w).2.store[f]? = some b ∧ b.parent = a.parent ∧
      b.names = a.names ++ bound ∧ bound <+: xs ∧
      ((bindParams f xs vs w).1 = .ok () → bound = xs) := by
  induction xs generalizing vs w a with
  | nil =>
    have hb : bindParams f [] vs w = (.ok (), w) := by cases vs <;> rfl
    rw [hb]
    exact ⟨fun _ _ => rfl, rfl, a, [], ha, rfl, (List.append_nil _).symm, List.prefix_refl _,
      fun _ => rfl⟩
  | cons x xs ih =>
    cases vs with
    | nil => cases hlen
    | cons v vs =>
      have hunfold : bindParams f (x :: xs) (v :: vs) = (create f x v >>= fun _ => bindParams f xs vs) :=
        rfl
      rw [hunfold, bind_apply]
      cases hbinds : w.store.binds f x with
      | true =>
        have hcreate : create f x v w = (.error (.error (.duplicate x) none), w) := if_pos hbinds
        rw [hcreate]
        exact ⟨fun _ _ => rfl, rfl, a, [], ha, rfl, (List.append_nil _).symm, List.nil_prefix, nofun⟩
      | false =>
        have hcreate : create f x v w = (.ok (), { w with store := w.store.set f x v }) := by
          rw [create, hbinds]
          rfl
        have hset : (w.store.set f x v)[f]? = some (a.set x v) := by
          rw [Store.set, Array.getElem?_modify, if_pos rfl, ha]
          rfl
        have hx : x ∉ a.names := fun hx => by
          rw [Store.binds_iff.2 ⟨a, ha, hx⟩] at hbinds
          cases hbinds
        rw [hcreate]
        obtain ⟨hother, hsize, b, bound, hb, hparent, hnames, hbound, hall⟩ :=
          ih (Nat.succ.inj hlen) (w := { w with store := w.store.set f x v }) hset
        refine ⟨fun g hg => ?_, hsize.trans (Store.size_set ..), b, x :: bound, hb, hparent, ?_, ?_, ?_⟩
        · rw [hother g hg]
          exact (Array.getElem?_modify ..).trans (if_neg hg.symm)
        · rw [hnames, Frame.names_set, if_neg hx, List.append_assoc]
          rfl
        · exact List.cons_prefix_cons.2 ⟨rfl, hbound⟩
        · intro hr
          rw [hall hr]

/-- What there is when a call is about to run the body, or has failed to. -/
theorem opened_names {params : List String} {args : List Value} (hlen : args.length = params.length)
    {outer : FrameId} {w w₂ : World} {r : Except Fault Unit}
    (h : bindParams w.store.size params args (w.push (.fresh (some outer) none none)).2 = (r, w₂)) :
    (∀ (g : FrameId) (a : Frame), w.store[g]? = some a → w₂.store[g]? = some a) ∧
    w₂.store.size = w.store.size + 1 ∧ ∃ b, w₂.store[w.store.size]? = some b ∧ b.parent = some outer ∧ b.names <+: params ∧
      (r = .ok () → b.names = params) := by
  have hinner : (w.push (.fresh (some outer) none none)).2.store[w.store.size]? =
      some (.fresh (some outer) none none) := Array.getElem?_push_size
  obtain ⟨hother, hsize, b, bound, hb, hparent, hnames, hbound, hall⟩ := bindParams_names hlen hinner
  rw [h] at hother hsize hb hall
  refine ⟨fun g a ha => ?_, hsize.trans (Array.size_push _), b, hb, hparent, ?_, fun hr => ?_⟩
  · have hlt : g < w.store.size := (Array.getElem?_eq_some_iff.1 ha).1
    rw [hother g (Nat.ne_of_lt hlt)]
    exact (Array.getElem?_push ..).trans ((if_neg (Nat.ne_of_lt hlt)).trans ha)
  · rw [hnames]
    exact hbound
  · rw [hnames]
    exact hall hr

theorem tracks_callWith {run : Expr → FrameId → Eval Value} {inBody : Expr → FrameId → Ledger}
    (h : ∀ m e g, (assigning A).Code m e → g < m → Tracks A g e.declared m (run e g) (inBody e g))
    {v : Value} (hv : (assigning A).Admits n v) {args : List Value}
    (hargs : ∀ a ∈ args, (assigning A).Admits n a) :
    Tracks A f names n (callWith run v args) (.callWith inBody v args) := by
  cases v with
  | closure params body outer i =>
    intro w hw hn
    by_cases hlen : args.length = params.length
    · have hrun : callWith run (.closure params body outer i) args w =
          (bindParams w.store.size params args >>= fun _ => run body w.store.size)
            (w.push (.fresh (some outer) none none)).2 := by
        rw [callWith, if_pos hlen]
        rfl
      obtain ⟨hpush, hinner⟩ := (keeps_newFrame ((assigning A).closure.1 hv.1)).leads hw hn rfl
      have hn₁ := Nat.le_trans hn hpush.size_le
      rcases hbind : bindParams w.store.size params args
        (w.push (.fresh (some outer) none none)).2 with ⟨r, w₂⟩
      obtain ⟨hsame, hsize, b, hb, hparent, hbound, hall⟩ := opened_names hlen hbind
      rw [hrun, bind_apply, hbind]
      cases r with
      | error fault =>
        rw [Ledger.callWith_error hlen hbind]
        refine ⟨Store.gains_of_same hsame, (accounts_nil rfl).cons ?_ rfl hsize⟩
        exact ⟨b, hb, hparent, hbound⟩
      | ok _ =>
        rw [Ledger.callWith_ok hlen hbind]
        obtain ⟨hlead, -⟩ := (keeps_bindParams (hinner _ rfl) params fun a ha =>
          (hargs a ha).mono hn₁).leads hpush.obeyed (Nat.le_refl _) hbind
        obtain ⟨hgains, haccounts⟩ := h w₂.store.size body w.store.size
          (Code.mono hv.2 (Nat.le_trans hn₁ hlead.size_le)) (hsize ▸ Nat.lt_succ_self _) w₂ hlead.obeyed
          (Nat.le_refl _)
        refine ⟨?_, haccounts.cons ?_ rfl hsize⟩
        · -- The frames that were there before are none of the body's own.
          refine hgains.since hsame fun g a x ha hx => ?_
          have hlt : g < w.store.size := (Array.getElem?_eq_some_iff.1 ha).1
          exact .inr (hx.resolve_left fun h => Nat.ne_of_lt hlt h.1)
        · obtain ⟨c, locals, hc, hcparent, hcnames, hlocals⟩ := hgains w.store.size b hb
          refine ⟨c, hc, hcparent.trans hparent, locals, by rw [hcnames, hall rfl], fun x hx => ?_⟩
          rcases hlocals x hx with ⟨-, hx⟩ | ⟨hroot, -⟩
          · exact hx
          · rw [hparent] at hroot
            cases hroot
    · have hrun : callWith run (.closure params body outer i) args =
          fail (.error (.arity params.length args.length) none) := if_neg hlen
      have hledger : Ledger.callWith inBody (.closure params body outer i) args w = [] := if_neg hlen
      rw [hrun, hledger]
      exact tracks_fail _ w hw hn
  | _ => exact tracks_fail _

end Eval

open Eval Discipline in
theorem eval_tracks {A : String → Prop} {n : Nat} {e : Expr} {f : FrameId} (rounds depth : Nat)
    (he : (assigning A).Code n e) (hf : f < n) :
    Tracks A f e.declared n (eval rounds depth e f) (calls rounds depth e f) := by
  induction depth using depth_induction generalizing n e f with
  | short depth h =>
    rw [eval_of_lt h, calls_of_lt h]
    exact tracks_fail _
  | node depth inner ih =>
    have hkeeps {m : Nat} {e : Expr} {f : FrameId} (he : (assigning A).Code m e) (hf : f < m) :=
      eval_keeps rounds (depth + 1) he hf
    refine Tracks.locate ?_ e
    cases e with
    | literal v pos => exact tracks_pure v
    | var x pos => exact tracks_resolve f x
    | print a pos =>
      refine (ih he.2 hf).bind_empty (hkeeps he.2 hf) hf fun m v hm hv => ?_
      exact (tracks_emit f v).bind_empty (keeps_emit hv) (Nat.lt_of_lt_of_le hf hm) fun _ _ _ _ =>
        tracks_pure v
    | binary op a b pos =>
      have ha : a.declared ⊆ (Expr.binary op a b pos).declared := List.subset_append_left _ _
      have hb : b.declared ⊆ (Expr.binary op a b pos).declared := List.subset_append_right _ _
      refine ((ih he.2.1 hf).mono ha).bind (hkeeps he.2.1 hf) hf fun m x hm _ => ?_
      have hcode := Code.mono he.2.2 hm
      have hf' := Nat.lt_of_lt_of_le hf hm
      exact ((ih hcode hf').mono hb).bind_empty (hkeeps hcode hf') hf' fun _ y _ _ =>
        tracks_ofExcept _
    | branch test yes no pos =>
      have ht : test.declared ⊆ (Expr.branch test yes no pos).declared := List.subset_append_left _ _
      have hy : yes.declared ⊆ (Expr.branch test yes no pos).declared :=
        List.subset_append_of_subset_right _ (List.subset_append_left _ _)
      have hno : no.declared ⊆ (Expr.branch test yes no pos).declared :=
        List.subset_append_of_subset_right _ (List.subset_append_right _ _)
      refine ((ih he.2.1 hf).mono ht).bind (hkeeps he.2.1 hf) hf fun m v hm _ => ?_
      refine (tracks_asBool _ v).bind (keeps_asBool _ v) (Nat.lt_of_lt_of_le hf hm) fun m' _ hm' _ => ?_
      have hle := Nat.le_trans hm hm'
      have hf' := Nat.lt_of_lt_of_le hf hle
      exact .ite ((ih (Code.mono he.2.2.1 hle) hf').mono hy) ((ih (Code.mono he.2.2.2 hle) hf').mono hno)
    | loop test body pos =>
      have ht : test.declared ⊆ (Expr.loop test body pos).declared := List.subset_append_left _ _
      have hb : body.declared ⊆ (Expr.loop test body pos).declared := List.subset_append_right _ _
      refine tracks_whileTrue ?_ ?_ ((ih he.2.2 hf).mono hb) (hkeeps he.2.2 hf) hf rounds
      · exact ((ih he.2.1 hf).mono ht).bind_empty (hkeeps he.2.1 hf) hf fun _ v _ _ => tracks_asBool _ v
      · exact (hkeeps he.2.1 hf).bind fun _ v _ _ => keeps_asBool _ v
    | seq a b pos =>
      refine tracks_runAll (fun s hs => ⟨?_, hkeeps (he.leaves s hs) hf⟩) hf .null
      exact (ih (he.leaves s hs) hf).mono (Expr.declared_leaves hs)
    | declare x init pos =>
      have hinit : init.declared ⊆ (Expr.declare x init pos).declared := List.subset_cons_self _ _
      have hx : x ∈ (Expr.declare x init pos).declared := List.mem_cons_self
      refine ((ih he.2 hf).mono hinit).bind_empty (hkeeps he.2 hf) hf fun m v hm hv => ?_
      have hf' := Nat.lt_of_lt_of_le hf hm
      exact (tracks_create hx v).bind_empty (keeps_create hf' hv x) hf' fun _ _ _ _ => tracks_resolve f x
    | assign x value pos =>
      refine (ih he.2 hf).bind_empty (hkeeps he.2 hf) hf fun m v hm hv => ?_
      have hf' := Nat.lt_of_lt_of_le hf hm
      exact (tracks_update hf' (he.1 x value pos rfl) v).bind_empty (keeps_update hf' hv x) hf'
        fun _ _ _ _ => tracks_resolve f x
    | function params body pos => exact tracks_makeClosure params body f
    | call callee args pos =>
      have hcallee : callee.declared ⊆ (Expr.call callee args pos).declared :=
        List.subset_append_left _ _
      have hargs {a : Expr} (ha : a ∈ args) : a.declared ⊆ (Expr.call callee args pos).declared :=
        List.subset_append_of_subset_right _ (Expr.declared_subset_declaredIn ha)
      refine ((ih he.2.1 hf).mono hcallee).bind (hkeeps he.2.1 hf) hf fun m v hm hv => ?_
      cases v with
      | closure params body frame i =>
        have hf' := Nat.lt_of_lt_of_le hf hm
        have hcode {a : Expr} (ha : a ∈ args) : (assigning A).Code m a :=
          Code.mono ((Expr.allIn_iff_forall args).1 he.2.2 a ha) hm
        have hkeep (a : Expr) (ha : a ∈ args) := eval_keeps rounds depth (hcode ha) hf'
        refine (tracks_evalArgs (fun a ha => ⟨(inner (hcode ha) hf').mono (hargs ha), hkeep a ha⟩)
          hf').bind (keeps_evalArgs hkeep) hf' fun m' vs hm' hvs => ?_
        exact tracks_callWith (fun _ _ _ he hg => inner he hg) (hv.mono hm') hvs
      | _ => exact tracks_fail _
    | blank => exact tracks_fail _
    | host h => exact tracks_fail _

/-- After an evaluation in frame `f`, whether it succeeded or not, a frame that was there before has
gained names declared in the tree if it is `f`, names assigned in the tree or in the closures there were
if it is a root, and nothing otherwise; so once a call has ended its frame has all the names it will
ever have. The other frames were made by the calls, one each, and hold parameters and names declared in
the body. -/
theorem eval_names (rounds depth : Nat) (e : Expr) (f : FrameId) (w : World) (hs : w.store.Anchored)
    (hf : f < w.store.size) (he : ∀ g, e.Captures g → g < w.store.size) :
    w.store.Gains (fun g outer x => (g = f ∧ x ∈ e.declared) ∨
      (outer = none ∧ (e.Assigns x ∨ w.store.Assigns x))) (eval rounds depth e f w).2.store ∧
    Accounts (calls rounds depth e f w) w.store (eval rounds depth e f w).2.store := by
  have hobeyed : (Discipline.assigning fun x => e.Assigns x ∨ w.store.Assigns x).Obeyed w.store :=
    Discipline.assigning_obeyed hs fun _ => .inr
  have hcode : (Discipline.assigning fun x => e.Assigns x ∨ w.store.Assigns x).Code w.store.size e := by
    refine Discipline.ofFrames_code.2 ⟨?_, he⟩
    rintro _ hmem x a pos rfl
    exact .inl ⟨a, pos, hmem⟩
  exact eval_tracks rounds depth hcode hf w hobeyed (Nat.le_refl _)

/-- A root with a closure that assigns a new name, and a frame inside it. -/
def nestedWorld : World where
  store := #[
    ⟨none, [("bump", .closure [] (.assign "count" (.literal (.int 1) none) none) 0 0)], none, none, 1⟩,
    ⟨some 0, [("own", .int 5)], none, none, 0⟩]
  log := []

/-- A call whose body declares a name and makes a function that declares another, a call that assigns
to the root, and one with a parameter that occurs twice. -/
def nestedCalls : Expr :=
  .seq
    (.declare "made" (.call (.literal (.closure ["p", "q"]
      (.seq (.declare "inside" (.var "p" none) none)
        (.function [] (.declare "deeper" (.var "q" none) none) none) none) 1 0) none)
      [.literal (.int 1) none, .literal (.int 2) none] none) none)
    (.seq (.call (.var "bump" none) [] none)
      (.call (.function ["r", "r"] (.var "r" none) none) [.literal .null none, .literal .null none] none)
      none) none

theorem nestedWorld_anchored : nestedWorld.store.Anchored where
  parent {f a p} ha hp := by
    match f with
    | 0 => cases ha; cases hp
    | 1 => cases ha; cases hp; decide
  captured {f a x v g} ha hv hg := by
    obtain ⟨params, body, i, hmem⟩ := hg
    match f with
    | 0 =>
      cases ha
      cases List.mem_singleton.1 hv
      simp only [Value.values, Expr.values, List.mem_cons, reduceCtorEq, Value.closure.injEq,
        List.not_mem_nil, or_false] at hmem
      rw [hmem.2.2.1]
      decide
    | 1 =>
      cases ha
      cases List.mem_singleton.1 hv
      simp [Value.values] at hmem

theorem nestedCalls_captures (g : FrameId) (h : nestedCalls.Captures g) : g = 1 := by
  obtain ⟨params, body, i, hmem⟩ := h
  simp only [nestedCalls, Expr.values, Expr.valuesIn, Value.values, List.mem_append, List.mem_cons,
    reduceCtorEq, Value.closure.injEq, List.not_mem_nil, or_false] at hmem
  exact hmem.2.2.1

theorem eval_names_nested :
    (nestedWorld.store.Anchored ∧ 1 < nestedWorld.store.size ∧
      ∀ g, nestedCalls.Captures g → g < nestedWorld.store.size) ∧
    (eval 1 40 nestedCalls 1 nestedWorld).2.store.toList.map Frame.names =
      [["bump", "count"], ["own", "made"], ["p", "q", "inside"], [], ["r"]] ∧
    nestedWorld.store.Gains (fun g outer x => (g = 1 ∧ x ∈ nestedCalls.declared) ∨
      (outer = none ∧ (nestedCalls.Assigns x ∨ nestedWorld.store.Assigns x)))
      (eval 1 40 nestedCalls 1 nestedWorld).2.store ∧
    Accounts (calls 1 40 nestedCalls 1 nestedWorld) nestedWorld.store
      (eval 1 40 nestedCalls 1 nestedWorld).2.store := by
  have hf : 1 < nestedWorld.store.size := by decide
  have he : ∀ g, nestedCalls.Captures g → g < nestedWorld.store.size := fun g hg =>
    nestedCalls_captures g hg ▸ hf
  exact ⟨⟨nestedWorld_anchored, hf, he⟩, by decide,
    eval_names 1 40 nestedCalls 1 nestedWorld nestedWorld_anchored hf he⟩

end Featherweight
