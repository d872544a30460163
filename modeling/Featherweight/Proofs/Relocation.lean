import Featherweight.Proofs.Adequacy
import Featherweight.Proofs.BareEval
import Featherweight.Proofs.Blame
import Featherweight.Proofs.Locality

/-!
# Featherweight.Proofs.Relocation

A tree whose nodes are moved to other places does what it did before.

* `eval_of_store_eq` : what was printed before has no part in an evaluation.
* `eval_relocated` : of two trees that differ in positions only, evaluated in stores that differ only
  in the positions inside closures, each does what the other does; only where an error is placed may
  differ.
-/

namespace Featherweight

/-- Printed values without positions. -/
def Output.bare (out : Output) : Output := out.map fun p => (p.1, p.2.bare)

/-- Use whatever there is. -/
def Discipline.anything : Discipline := coded fun _ => True

namespace Discipline

theorem anything_code (n : Nat) (e : Expr) : anything.Code n e :=
  ofFrames_code.2 ⟨fun _ _ => trivial, fun _ _ => trivial⟩

theorem anything_obeyed (s : Store) : anything.Obeyed s where
  base_le := Nat.zero_le _
  parent _ _ _ := trivial
  binding _ _ _ := ofFrames_admits.2 ⟨fun _ _ => trivial, fun _ _ => trivial⟩

end Discipline

/-- From the same store an evaluation does the same, whatever was printed before. -/
theorem eval_of_store_eq (rounds depth : Nat) (e : Expr) (f : FrameId) {w t : World}
    (h : t.store = w.store) :
    (eval rounds depth e f t).1 = (eval rounds depth e f w).1 ∧
    (eval rounds depth e f t).2.store = (eval rounds depth e f w).2.store ∧
    ∃ out, w.Logs (eval rounds depth e f w).2 out ∧ t.Logs (eval rounds depth e f t).2 out := by
  have hagree : Discipline.anything.Agree w.store t.store := ⟨by rw [h], fun _ _ => by rw [h]⟩
  obtain ⟨hresult, hstores, out, hw, ht⟩ := eval_repeats rounds depth
    (Discipline.anything_code 0 e) trivial w t (Discipline.anything_obeyed _) (Nat.zero_le _) hagree
  refine ⟨hresult, Array.ext_getElem? fun g => hstores.frame g trivial, out.reverse, ?_, ?_⟩
  · rw [World.Logs, List.reverse_reverse, hw]
  · rw [World.Logs, List.reverse_reverse, ht]

/-- What the bare tree does in the bare store, with nothing printed before. -/
theorem eval_bare_store (rounds depth : Nat) (e : Expr) (f : FrameId) (w : World) :
    ∃ out, w.Logs (eval rounds depth e f w).2 out ∧
      (eval rounds depth e.bare f ⟨w.store.bare id, []⟩).1 =
        Eval.bareWith Value.bare (eval rounds depth e f w).1 ∧
      (eval rounds depth e.bare f ⟨w.store.bare id, []⟩).2 =
        ⟨(eval rounds depth e f w).2.store.bare id, out.bare.reverse⟩ := by
  obtain ⟨hresult, hstore, out, hw, hempty⟩ := eval_of_store_eq rounds depth e f
    (w := w) (t := ⟨w.store, []⟩) rfl
  have hbare := eval_bare (g := id) rfl rounds depth e f ⟨w.store, []⟩
  have hstart : World.bare id ⟨w.store, []⟩ = ⟨w.store.bare id, []⟩ := rfl
  rw [hstart, hresult] at hbare
  refine ⟨out, hw, by rw [hbare], ?_⟩
  have hlog : (eval rounds depth e f ⟨w.store, []⟩).2.log = out.reverse := by
    rw [hempty, List.append_nil]
  rw [hbare, World.bare, hstore, hlog, Output.bare, List.map_reverse]

/-- Two trees that are the same but for positions, evaluated in stores that are the same but for the
positions inside closures, have the same value or fail for the same cause, print the same values to
the same sinks in the same order, and leave stores that are the same but for such positions. -/
theorem eval_relocated (rounds depth : Nat) (e₁ e₂ : Expr) (f : FrameId) (w₁ w₂ : World)
    (he : e₁.bare = e₂.bare) (hs : w₁.store.bare id = w₂.store.bare id) :
    Eval.bareWith Value.bare (eval rounds depth e₁ f w₁).1 =
      Eval.bareWith Value.bare (eval rounds depth e₂ f w₂).1 ∧
    (∃ out₁ out₂, w₁.Logs (eval rounds depth e₁ f w₁).2 out₁ ∧
      w₂.Logs (eval rounds depth e₂ f w₂).2 out₂ ∧ out₁.bare = out₂.bare) ∧
    (eval rounds depth e₁ f w₁).2.store.bare id = (eval rounds depth e₂ f w₂).2.store.bare id := by
  obtain ⟨out₁, hlog₁, hresult₁, hworld₁⟩ := eval_bare_store rounds depth e₁ f w₁
  obtain ⟨out₂, hlog₂, hresult₂, hworld₂⟩ := eval_bare_store rounds depth e₂ f w₂
  rw [he, hs] at hresult₁ hworld₁
  obtain ⟨hstore, hout⟩ := World.mk.inj (hworld₁.symm.trans hworld₂)
  exact ⟨hresult₁.symm.trans hresult₂,
    ⟨out₁, out₂, hlog₁, hlog₂, List.reverse_inj.1 hout⟩, hstore⟩

/-- A frame with a function that divides by its parameter, all of it at one position. -/
def quotientWorld (pos : Option Pos) : World where
  store := #[⟨none, [("f", .closure ["x"]
    (.binary .div (.literal (.int 1) pos) (.var "x" pos) pos) 0 0)], some 3, none, 1⟩]
  log := []

/-- The function is printed and then called with zero. -/
def quotientTree (pos : Option Pos) : Expr :=
  .seq (.print (.var "f" pos) pos) (.call (.var "f" pos) [.literal (.int 0) pos] pos) pos

/-- The error of the first evaluation has a place and that of the second has none. -/
theorem eval_relocated_quotient :
    let p : Option Pos := some ⟨some 2, some 5, none, none⟩
    ((quotientTree p).bare = (quotientTree none).bare ∧
      (quotientWorld p).store.bare id = (quotientWorld none).store.bare id) ∧
    (eval 1 40 (quotientTree p) 0 (quotientWorld p)).1 = .error (.error (.divisionByZero .div) p) ∧
    (eval 1 40 (quotientTree none) 0 (quotientWorld none)).1 =
      .error (.error (.divisionByZero .div) none) ∧
    (∃ out₁ out₂, (quotientWorld p).Logs (eval 1 40 (quotientTree p) 0 (quotientWorld p)).2 out₁ ∧
      (quotientWorld none).Logs (eval 1 40 (quotientTree none) 0 (quotientWorld none)).2 out₂ ∧
      out₁.bare = out₂.bare) ∧
    (eval 1 40 (quotientTree p) 0 (quotientWorld p)).2.store.bare id =
      (eval 1 40 (quotientTree none) 0 (quotientWorld none)).2.store.bare id := by
  intro p
  have he : (quotientTree p).bare = (quotientTree none).bare := by rfl
  have hs : (quotientWorld p).store.bare id = (quotientWorld none).store.bare id := by
    simp [quotientWorld, Store.bare, Frame.bare, Value.bare, Expr.bare]
  obtain ⟨-, hout, hstore⟩ :=
    eval_relocated 1 40 (quotientTree p) (quotientTree none) 0 (quotientWorld p) (quotientWorld none) he hs
  exact ⟨⟨he, hs⟩, by rfl, by rfl, hout, hstore⟩

end Featherweight
