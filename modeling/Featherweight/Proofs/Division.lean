import Mathlib.Data.Rat.Floor
import Featherweight.Proofs.Bare
import Featherweight.Proofs.Computation
import Featherweight.Proofs.Words

/-!
# Featherweight.Proofs.Division

Quotients and remainders belong together.

* `truncate` : a fraction rounded toward zero.
* `divisionTree x y` : the tree of `(x / y) * y + x % y == x`.
* `division_law` : it is true for every divisor but zero, even where the quotient does not fit; the
  remainder is smaller than the divisor and has the sign of the dividend, and the quotient is that of
  the fractions wherever it fits.
-/

namespace Featherweight

/-! ## Rounding toward zero -/

def truncate (q : ℚ) : ℤ := if 0 ≤ q then ⌊q⌋ else ⌈q⌉

theorem truncate_neg (q : ℚ) : truncate (-q) = -truncate q := by
  rcases lt_trichotomy q 0 with hq | rfl | hq
  · rw [truncate, truncate, if_pos (by linarith), if_neg (by linarith), Int.floor_neg]
  · simp [truncate]
  · rw [truncate, truncate, if_neg (by linarith), if_pos hq.le, Int.ceil_neg]

theorem truncate_div_natCast (x : ℤ) (n : ℕ) : truncate (x / n) = x.tdiv n := by
  have hpos (k : ℕ) : truncate ((k : ℤ) / n) = (k : ℤ).tdiv n := by
    rw [truncate, if_pos (by positivity), Rat.floor_intCast_div_natCast,
      Int.tdiv_eq_ediv_of_nonneg (Int.natCast_nonneg k)]
  obtain ⟨k, rfl | rfl⟩ := x.eq_nat_or_neg
  · exact hpos k
  · rw [Int.cast_neg, neg_div, truncate_neg, hpos, Int.neg_tdiv]

theorem truncate_div (x y : ℤ) : truncate (x / y) = x.tdiv y := by
  obtain ⟨n, rfl | rfl⟩ := y.eq_nat_or_neg
  · exact truncate_div_natCast x n
  · rw [Int.cast_neg, div_neg, truncate_neg, Int.tdiv_neg]
    exact congrArg Neg.neg (truncate_div_natCast x n)

/-! ## Quotients that fit -/

/-- The only quotient that is out of range is that of the smallest integer by minus one. -/
theorem tdiv_inRange {x y : Int} (hx : minInt ≤ x ∧ x ≤ maxInt) (h : ¬ (x = minInt ∧ y = -1)) :
    minInt ≤ x.tdiv y ∧ x.tdiv y ≤ maxInt := by
  simp only [minInt, maxInt] at hx h ⊢
  rcases Nat.lt_or_ge y.natAbs 2 with hlt | hge
  · have hcases : y = 0 ∨ y = 1 ∨ y = -1 := by omega
    rcases hcases with rfl | rfl | rfl
    · simp
    · simpa using hx
    · rw [Int.tdiv_neg, Int.tdiv_one]
      omega
  · -- A larger divisor halves the dividend at least.
    have habs : (x.tdiv y).natAbs = x.natAbs / y.natAbs := Int.natAbs_tdiv x y
    have hhalf : x.natAbs / y.natAbs ≤ x.natAbs / 2 := Nat.div_le_div_left hge (by decide)
    omega

/-- Multiplying back and adding the remainder gives the dividend: a product that is wrapped in between
makes no difference to a sum that is wrapped in the end. -/
theorem wrap_quotient_add_remainder {x : Int} (hx : minInt ≤ x ∧ x ≤ maxInt) (y : Int) :
    wrap (wrap (wrap (x.tdiv y) * y) + x.tmod y) = x := by
  have hmul : wrap (wrap (x.tdiv y) * y) = wrap (x.tdiv y * y) := Int.bmod_mul_bmod
  calc wrap (wrap (wrap (x.tdiv y) * y) + x.tmod y)
      = wrap (wrap (x.tdiv y * y) + x.tmod y) := by rw [hmul]
    _ = wrap (x.tdiv y * y + x.tmod y) := Int.bmod_add_bmod
    _ = wrap x := by rw [Int.tdiv_mul_add_tmod]
    _ = x := wrap_of_inRange hx

theorem abs_tmod_lt (x : Int) {y : Int} (hy : y ≠ 0) : |x.tmod y| < |y| := by
  rw [Int.abs_eq_natAbs, Int.abs_eq_natAbs, Int.natAbs_tmod, Int.ofNat_lt]
  exact Nat.mod_lt _ (Int.natAbs_pos.2 hy)

theorem sign_tmod_eq (x y : Int) : x.tmod y = 0 ∨ (x.tmod y).sign = x.sign := by
  by_cases h : y ∣ x
  · exact .inl (Int.tmod_eq_zero_of_dvd h)
  · exact .inr (by rw [Int.sign_tmod, if_neg h])

/-! ## The law -/

namespace Expr

theorem bare_eq_binary {e a b : Expr} {op : Op} (h : e.bare = .binary op a b none) :
    ∃ a' b' pos, e = .binary op a' b' pos ∧ a'.bare = a ∧ b'.bare = b := by
  cases e <;> simp_all [bare]

theorem bare_eq_int {e : Expr} {n : Int} (h : e.bare = .literal (.int n) none) :
    ∃ pos, e = .literal (.int n) pos := by
  cases e with
  | literal v pos => cases v <;> simp_all [bare, Value.bare]
  | _ => simp [bare] at h

end Expr

/-- An integer literal without a position. -/
def number (n : Int) : Expr := .literal (.int n) none

/-- The tree of `(x / y) * y + x % y == x`, without positions. -/
def divisionTree (x y : Int) : Expr :=
  .binary .eq
    (.binary .add
      (.binary .mul (.binary .div (number x) (number y) none) (number y) none)
      (.binary .mod (number x) (number y) none) none)
    (number x) none

theorem divisionTree_yields {e : Expr} {x y : Int} (he : e.bare = divisionTree x y)
    (hx : minInt ≤ x ∧ x ≤ maxInt) (hy : y ≠ 0) : e.Yields 16 (.bool true) := by
  obtain ⟨sum, x₃, p₁, rfl, hsum, hx₃⟩ := Expr.bare_eq_binary he
  obtain ⟨product, remainder, p₂, rfl, hproduct, hremainder⟩ := Expr.bare_eq_binary hsum
  obtain ⟨quotient, y₂, p₃, rfl, hquotient, hy₂⟩ := Expr.bare_eq_binary hproduct
  obtain ⟨x₁, y₁, p₄, rfl, hx₁, hy₁⟩ := Expr.bare_eq_binary hquotient
  obtain ⟨x₂, y₃, p₅, rfl, hx₂, hy₃⟩ := Expr.bare_eq_binary hremainder
  have hnumber {e : Expr} {n : Int} (h : e.bare = number n) (depth : Nat) :
      e.Yields (depth + 4) (.int n) := by
    obtain ⟨pos, rfl⟩ := Expr.bare_eq_int h
    exact Expr.yields_literal _ _ _
  have hdiv := (hnumber hx₁ 0).binary .div (hnumber hy₁ 0) p₄ (Op.apply_div hy x)
  have hmul := hdiv.binary .mul (hnumber hy₂ 3) p₃ rfl
  have hmod := (hnumber hx₂ 3).binary .mod (hnumber hy₃ 3) p₅ (Op.apply_mod hy x)
  have hadd := hmul.binary .add hmod p₂ rfl
  refine hadd.binary .eq (hnumber hx₃ 9) p₁ ?_
  rw [wrap_quotient_add_remainder hx]
  simp [Op.apply, Op.onInts]

/-- For every dividend and every divisor but zero, `(x / y) * y + x % y == x` is true wherever its
nodes stand in the text and whatever the world is like, which it leaves as it was. The remainder is
closer to zero than the divisor and is zero or has the sign of the dividend. The quotient is the
fraction rounded toward zero, unless the smallest integer is divided by minus one. -/
theorem division_law {x y : Int} (hx : minInt ≤ x ∧ x ≤ maxInt) (hy : y ≠ 0) :
    (∀ e rounds depth f w, e.bare = divisionTree x y → 16 ≤ depth →
      eval rounds depth e f w = (.ok (.bool true), w)) ∧
    (∃ r, Op.apply .mod (.int x) (.int y) = .ok (.int r) ∧ |r| < |y| ∧ (r = 0 ∨ r.sign = x.sign)) ∧
    (∃ q, Op.apply .div (.int x) (.int y) = .ok (.int q) ∧
      (q = truncate ((x : ℚ) / (y : ℚ)) ↔ ¬ (x = minInt ∧ y = -1))) := by
  refine ⟨fun e rounds depth f w he hdepth => ?_, ?_, ?_⟩
  · exact (divisionTree_yields he hx hy).deeper hdepth rounds f w
  · exact ⟨x.tmod y, Op.apply_mod hy x, abs_tmod_lt x hy, sign_tmod_eq x y⟩
  · refine ⟨wrap (x.tdiv y), Op.apply_div hy x, ?_⟩
    rw [truncate_div]
    constructor
    · rintro hq ⟨rfl, rfl⟩
      exact absurd hq (by decide)
    · intro h
      exact wrap_of_inRange (tdiv_inRange hx h)

/-- The quotient overflows, and the law holds all the same. -/
theorem division_law_overflow :
    ((minInt ≤ minInt ∧ minInt ≤ maxInt) ∧ (-1 : Int) ≠ 0) ∧
    (divisionTree minInt (-1)).bare = divisionTree minInt (-1) ∧
    eval 0 16 (divisionTree minInt (-1)) 0 .empty = (.ok (.bool true), .empty) ∧
    ∃ q, Op.apply .div (.int minInt) (.int (-1)) = .ok (.int q) ∧
      q ≠ truncate ((minInt : ℚ) / ((-1 : Int) : ℚ)) := by
  have hmin : minInt ≤ minInt ∧ minInt ≤ maxInt := by decide
  have hone : (-1 : Int) ≠ 0 := by decide
  obtain ⟨hlaw, -, q, hq, hexact⟩ := division_law hmin hone
  refine ⟨⟨hmin, hone⟩, rfl, hlaw _ 0 16 0 .empty rfl (Nat.le_refl 16), q, hq, ?_⟩
  intro heq
  exact hexact.1 heq ⟨rfl, rfl⟩

end Featherweight
