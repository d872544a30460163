import Featherweight.Proofs.Parsed
import Featherweight.Proofs.Sessions

/-!
# Featherweight.Proofs.Range

Integers stay within 64 bits.

* `Value.InRange` : every integer in a value, and in the literals of its body, is a signed 64-bit
  integer; `Expr.InRange` and `Store.InRange` say the same of a tree and of all frames.
* `Op.apply_inRange` : an operator leads from such integers to such integers.
* `integers_stay_in_range` : so do literals, evaluations and whole sessions.
-/

namespace Featherweight

def minInt : Int := -0x8000000000000000

def maxInt : Int := 0x7fffffffffffffff

def Value.InRange (v : Value) : Prop := ∀ n, .int n ∈ v.values → minInt ≤ n ∧ n ≤ maxInt

def Expr.InRange (e : Expr) : Prop := ∀ n, .int n ∈ e.values → minInt ≤ n ∧ n ≤ maxInt

def Store.InRange (s : Store) : Prop :=
  ∀ (f : FrameId) (a : Frame) (x : String) (v : Value),
    s[f]? = some a → (x, v) ∈ a.vars → v.InRange

theorem wrap_inRange (n : Int) : minInt ≤ wrap n ∧ wrap n ≤ maxInt := by
  have hlow : -(0x10000000000000000 / 2 : Int) ≤ wrap n := Int.le_bmod (by decide)
  have hhigh : wrap n < (0x10000000000000000 + 1) / 2 := Int.bmod_lt (by decide)
  simp only [minInt, maxInt]
  omega

theorem wrap_of_inRange {n : Int} (h : minInt ≤ n ∧ n ≤ maxInt) : wrap n = n := by
  simp only [minInt, maxInt] at h
  exact Int.bmod_eq_of_le (by omega) (by omega)

/-- A remainder is no further from zero than the dividend, so it needs no wrapping. -/
theorem tmod_inRange {x : Int} (hx : minInt ≤ x ∧ x ≤ maxInt) (y : Int) :
    minInt ≤ x.tmod y ∧ x.tmod y ≤ maxInt := by
  have habs : (x.tmod y).natAbs = x.natAbs % y.natAbs := Int.natAbs_tmod x y
  have hle : x.natAbs % y.natAbs ≤ x.natAbs := Nat.mod_le _ _
  have hpos : 0 ≤ x → 0 ≤ x.tmod y := fun h => Int.tmod_nonneg y h
  have hneg : 0 ≤ -x → 0 ≤ -x.tmod y := fun h => Int.neg_tmod x y ▸ Int.tmod_nonneg y h
  simp only [minInt, maxInt] at hx ⊢
  omega

/-- A single value that is no integer out of range. -/
def Value.Fits : Value → Prop
  | .int n => minInt ≤ n ∧ n ≤ maxInt
  | .null | .bool _ | .closure .. | .host _ => True

theorem Op.apply_inRange {op : Op} {x y v : Value} (hx : x.Fits) (h : op.apply x y = .ok v) :
    v.Fits := by
  cases x with
  | int a =>
    cases y with
    | int b =>
      have hx : minInt ≤ a ∧ a ≤ maxInt := hx
      cases op with
      | add => cases h; exact wrap_inRange _
      | sub => cases h; exact wrap_inRange _
      | mul => cases h; exact wrap_inRange _
      | div =>
        simp only [apply, onInts, quotRem?] at h
        split at h
        · rename_i heq
          cases h
          exact wrap_inRange _
        · cases h
      | mod =>
        simp only [apply, onInts, quotRem?] at h
        split at h
        · rename_i heq
          cases h
          split at heq
          · cases heq
          · cases heq
            exact tmod_inRange hx b
        · cases h
      | _ => cases h; trivial
    | _ => cases h
  | _ => cases h

/-- Only integers in range. -/
def Discipline.ranged : Discipline where
  node _ := True
  value _ := Value.Fits
  frame _ _ := True
  base := 0
  null _ := trivial
  apply hx _ h := Op.apply_inRange hx h
  closure := Iff.rfl
  value_mono _ h := h
  frame_mono _ h := h
  fresh _ := trivial
  settled _ h := h

namespace Discipline

theorem forall_fits {values : List Value} :
    (∀ v ∈ values, v.Fits) ↔ ∀ n, .int n ∈ values → minInt ≤ n ∧ n ≤ maxInt := by
  constructor
  · intro h n hn
    exact h _ hn
  · intro h v hv
    cases v with
    | int n => exact h n hv
    | _ => trivial

theorem ranged_admits {n : Nat} {v : Value} : ranged.Admits n v ↔ v.InRange := by
  rw [Admits, Value.all_iff, Value.InRange, ← forall_fits]
  exact and_iff_right fun _ _ => trivial

theorem ranged_code {n : Nat} {e : Expr} : ranged.Code n e ↔ e.InRange := by
  rw [Code, Expr.all_iff, Expr.InRange, ← forall_fits]
  exact and_iff_right fun _ _ => trivial

theorem ranged_obeyed {s : Store} : ranged.Obeyed s ↔ s.InRange := by
  constructor
  · intro h f a x v ha hv
    exact ranged_admits.1 (h.binding ha trivial hv)
  · intro h
    exact ⟨Nat.zero_le _, fun _ _ _ => trivial, fun ha _ hv => ranged_admits.2 (h _ _ _ _ ha hv)⟩

end Discipline

theorem parse_int {text : String} {e : Expr} (h : parse text = .ok e) (n : Int)
    (hn : .int n ∈ e.values) : -maxInt ≤ n ∧ n ≤ maxInt :=
  ((Expr.all_iff e).1 (parse_plain h)).2 _ hn

open Discipline in
/-- Literals are at most `maxInt` away from zero. Where the integers in a tree and in all frames are in
range, so are those that an evaluation leaves, prints and returns, whatever it comes to; hence no
session ever holds, prints or returns another one. -/
theorem integers_stay_in_range :
    (∀ text e, parse text = .ok e → ∀ n, .int n ∈ e.values → -maxInt ≤ n ∧ n ≤ maxInt) ∧
    (∀ rounds depth e f w, e.InRange → w.store.InRange →
      (eval rounds depth e f w).2.store.InRange ∧
      (∃ out, (eval rounds depth e f w).2.log = out ++ w.log ∧ ∀ entry ∈ out, entry.2.InRange) ∧
      ∀ v, (eval rounds depth e f w).1 = .ok v → v.InRange) ∧
    (∀ sink source requests,
      (Session.serveAll 0 requests (.fresh sink source)).2.store.InRange ∧
      (∀ entry ∈ (Session.serveAll 0 requests (.fresh sink source)).2.log, entry.2.InRange) ∧
      ∀ v, .ok v ∈ (Session.serveAll 0 requests (.fresh sink source)).1 → v.InRange) := by
  refine ⟨fun text e h => parse_int h, ?_, ?_⟩
  · intro rounds depth e f w he hw
    obtain ⟨hlead, hok⟩ := eval_keeps (n := 0) rounds depth (ranged_code.2 he) trivial w
      (ranged_obeyed.2 hw) (Nat.zero_le _)
    obtain ⟨out, hlog, hout⟩ := hlead.log
    refine ⟨ranged_obeyed.1 hlead.obeyed, ⟨out, hlog, ?_⟩, fun v hv => ranged_admits.1 (hok v hv)⟩
    exact fun entry hentry => ranged_admits.1 (hout entry hentry)
  · intro sink source requests
    have hcode : ∀ text e, parse text = .ok e → ranged.Code 1 e := by
      intro text e h
      refine ranged_code.2 fun n hn => ?_
      have hrange := parse_int h n hn
      simp only [minInt, maxInt] at hrange ⊢
      omega
    have hfresh : ranged.Obeyed (World.fresh sink source).store := by
      refine ranged_obeyed.2 fun f a x v ha hv => ?_
      obtain ⟨-, rfl⟩ := World.fresh_getElem? ha
      cases hv
    obtain ⟨hlead, hok⟩ := Session.serveAll_leads hcode hfresh trivial requests
    obtain ⟨out, hlog, hout⟩ := hlead.log
    refine ⟨ranged_obeyed.1 hlead.obeyed, ?_, fun v hv => ranged_admits.1 (hok v hv)⟩
    rw [hlog]
    intro entry hentry
    exact ranged_admits.1 (hout entry (List.append_nil out ▸ hentry))

theorem integers_stay_in_range_overflow :
    let requests : List Session.Request :=
      [.run "var x = -9223372036854775807 - 1; print(x / -1);" none, .enter "x % 0" none,
        .enter "x - 1" none]
    (Session.serveAll 0 requests (.fresh none none)).1.map (·.toOption.map Value.display) =
      [some "-9223372036854775808", none, some "9223372036854775807"] ∧
    (Session.serveAll 0 requests (.fresh none none)).2.store.InRange ∧
    ∀ entry ∈ (Session.serveAll 0 requests (.fresh none none)).2.log, entry.2.InRange := by
  intro requests
  obtain ⟨hstore, hlog, -⟩ := integers_stay_in_range.2.2 none none requests
  exact ⟨by decide +kernel, hstore, hlog⟩

end Featherweight
