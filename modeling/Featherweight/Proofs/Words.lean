import Featherweight.Proofs.Range

/-!
# Featherweight.Proofs.Words

The operators are those of a 64-bit machine.

* `Op.onWords` : an operator on two words, which are read as two's complement.
* `apply_words` : on integers in range every operator is that on their words, except that a quotient
  and a remainder by zero are refused.
-/

namespace Featherweight

/-- A machine word. -/
abbrev Word : Type := BitVec 64

/-- An integer in range is the signed value of its word. -/
theorem toInt_word {n : Int} (h : minInt ≤ n ∧ n ≤ maxInt) : (BitVec.ofInt 64 n).toInt = n := by
  simp only [minInt, maxInt] at h
  exact BitVec.toInt_ofInt_eq_self (by decide) (by omega) (by omega)

namespace Op

/-- The operator on words. Sums, differences and products are taken modulo `2 ^ 64`, quotients go
toward zero, a remainder has the sign of `a`, and comparisons are signed. -/
def onWords (op : Op) (a b : Word) : Value :=
  match op with
  | .add => .int (a + b).toInt
  | .sub => .int (a - b).toInt
  | .mul => .int (a * b).toInt
  | .div => .int (a.sdiv b).toInt
  | .mod => .int (a.srem b).toInt
  | .gt => .bool (b.slt a)
  | .ge => .bool (b.sle a)
  | .lt => .bool (a.slt b)
  | .le => .bool (a.sle b)
  | .eq => .bool (a == b)

theorem apply_div {y : Int} (hy : y ≠ 0) (x : Int) :
    apply .div (.int x) (.int y) = .ok (.int (wrap (x.tdiv y))) := by
  simp only [apply, onInts, quotRem?, if_neg hy]

theorem apply_mod {y : Int} (hy : y ≠ 0) (x : Int) :
    apply .mod (.int x) (.int y) = .ok (.int (x.tmod y)) := by
  simp only [apply, onInts, quotRem?, if_neg hy]

theorem apply_zero {op : Op} (h : op = .div ∨ op = .mod) (x : Int) :
    op.apply (.int x) (.int 0) = .error (.divisionByZero op) := by
  rcases h with rfl | rfl <;> rfl

/-- What an operator gives for the signed values of two words. -/
theorem apply_toInt (op : Op) (a b : Word) (h : ¬ ((op = .div ∨ op = .mod) ∧ b.toInt = 0)) :
    op.apply (.int a.toInt) (.int b.toInt) = .ok (op.onWords a b) := by
  cases op with
  | add => rw [onWords, BitVec.toInt_add]; rfl
  | sub => rw [onWords, BitVec.toInt_sub]; rfl
  | mul => rw [onWords, BitVec.toInt_mul]; rfl
  | div =>
    -- The quotient of the smallest integer by minus one wraps around on both sides.
    have hb : b.toInt ≠ 0 := fun hb => h ⟨.inl rfl, hb⟩
    rw [apply_div hb, onWords, BitVec.toInt_sdiv]
    rfl
  | mod =>
    have hb : b.toInt ≠ 0 := fun hb => h ⟨.inr rfl, hb⟩
    rw [apply_mod hb, onWords, BitVec.toInt_srem]
  | gt | ge | lt | le => rfl
  | eq =>
    have heq : (a == b) = decide (a.toInt = b.toInt) := by
      rw [Bool.eq_iff_iff, beq_iff_eq, decide_eq_true_iff, BitVec.toInt_inj]
    rw [onWords, heq]
    rfl

end Op

/-- On signed 64-bit integers an operator gives the signed value of what it is on words, and it fails
only as a quotient or a remainder by zero. -/
theorem apply_words (op : Op) {x y : Int} (hx : minInt ≤ x ∧ x ≤ maxInt)
    (hy : minInt ≤ y ∧ y ≤ maxInt) :
    (op.apply (.int x) (.int y) = .error (.divisionByZero op) ↔ (op = .div ∨ op = .mod) ∧ y = 0) ∧
    (¬ ((op = .div ∨ op = .mod) ∧ y = 0) →
      op.apply (.int x) (.int y) = .ok (op.onWords (BitVec.ofInt 64 x) (BitVec.ofInt 64 y))) := by
  have hwords (h : ¬ ((op = .div ∨ op = .mod) ∧ y = 0)) :
      op.apply (.int x) (.int y) = .ok (op.onWords (BitVec.ofInt 64 x) (BitVec.ofInt 64 y)) := by
    have happly := op.apply_toInt (BitVec.ofInt 64 x) (BitVec.ofInt 64 y)
    rw [toInt_word hx, toInt_word hy] at happly
    exact happly h
  refine ⟨⟨fun herror => ?_, ?_⟩, hwords⟩
  · by_contra hdiv
    rw [hwords hdiv] at herror
    cases herror
  · rintro ⟨hop, rfl⟩
    exact Op.apply_zero hop x

/-- The quotient that does not fit, and its remainder. -/
theorem apply_words_overflow :
    (minInt ≤ minInt ∧ minInt ≤ maxInt) ∧ (minInt ≤ -1 ∧ -1 ≤ maxInt) ∧
    Op.onWords .div (BitVec.ofInt 64 minInt) (BitVec.ofInt 64 (-1)) = .int minInt ∧
    Op.apply .div (.int minInt) (.int (-1)) =
      .ok (Op.onWords .div (BitVec.ofInt 64 minInt) (BitVec.ofInt 64 (-1))) ∧
    Op.apply .mod (.int minInt) (.int (-1)) =
      .ok (Op.onWords .mod (BitVec.ofInt 64 minInt) (BitVec.ofInt 64 (-1))) ∧
    Op.apply .mod (.int minInt) (.int 0) = .error (.divisionByZero .mod) :=
  have hmin : minInt ≤ minInt ∧ minInt ≤ maxInt := by decide
  have hone : minInt ≤ -1 ∧ -1 ≤ maxInt := by decide
  ⟨hmin, hone, rfl, (apply_words .div hmin hone).2 (by decide),
    (apply_words .mod hmin hone).2 (by decide), (apply_words .mod hmin (by decide)).1.2 (by decide)⟩

end Featherweight
