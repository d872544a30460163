import Featherweight.Proofs.Positions
import Featherweight.Proofs.Soundness

/-!
# Featherweight.Proofs.Literals

Going through a program meets the integers in the order of the text.

* `Parser.Leftmost ts flaw` : what is found wrong in a derivation with the tokens `ts` is the leftmost
  integer that is wrong, or that a level is one too many.
* `parseTokens_cases` : the three ways in which a text that has a derivation is parsed.
-/

namespace Featherweight

namespace Parser

inductive Leftmost (ts : List Token) : Option ParseError → Prop where
  | tooDeep : Leftmost ts (some .tooDeep)
  | first : Leftmost ts (ts.findSome? literalError?)

/-- What is found on the left comes before what is found on the right. -/
theorem Leftmost.append {ts us : List Token} {flaw flaw' : Option ParseError}
    (h : Leftmost ts flaw) (h' : Leftmost us flaw') : Leftmost (ts ++ us) (flaw <|> flaw') := by
  cases h with
  | tooDeep => exact .tooDeep
  | first =>
    cases hts : ts.findSome? literalError? with
    | some e =>
      have hfirst : (ts ++ us).findSome? literalError? = some e := by
        rw [List.findSome?_append, hts, Option.some_or]
      show Leftmost (ts ++ us) (some e)
      rw [← hfirst]
      exact .first
    | none =>
      cases h' with
      | tooDeep => exact .tooDeep
      | first =>
        have hskip : (ts ++ us).findSome? literalError? = us.findSome? literalError? := by
          rw [List.findSome?_append, hts, Option.none_or]
        show Leftmost (ts ++ us) (us.findSome? literalError?)
        rw [← hskip]
        exact .first

theorem Leftmost.eq_of_ne {ts : List Token} {e : ParseError} (h : Leftmost ts (some e))
    (he : e ≠ .tooDeep) : ts.findSome? literalError? = some e := by
  generalize hflaw : some e = flaw at h
  cases h with
  | tooDeep => exact absurd (Option.some.inj hflaw) he
  | first => rfl

end Parser

/-- What is found wrong in a part with these tokens is the leftmost that is wrong. -/
def Part.Checks (X : Symbol) (part : Part X) (ts : List Token) : Prop :=
  ∀ levels, Parser.Leftmost ts (part.flaw? levels)

theorem ValuesAlike.leftmost {word : List Symbol} {parts : Values Part word}
    {tss : Values (fun _ => List Token) word} (h : ValuesAlike Part.Checks word parts tss)
    (levels : Nat) :
    Parser.Leftmost (tss.contents (fun _ ts => ts) word) (Parser.flawIn? levels word parts) := by
  induction word with
  | nil => exact .first
  | cons X word ih => exact (h.1 levels).append (ih h.2)

/-- The parts of every production are gone through in the order of their tokens. -/
theorem lowering_collecting_checks : Alike Parser.lowering collecting Part.Checks where
  leaf t levels := by
    have hone : Parser.literalError? t = [t].findSome? Parser.literalError? := by
      cases ht : Parser.literalError? t <;> simp [ht]
    show Parser.Leftmost [t] (Parser.literalError? t)
    rw [hone]
    exact .first
  node p parts tss h levels := by
    show Parser.Leftmost (Values.contents (fun _ ts => ts) p.rhs tss)
      (Parser.flawOf? p parts levels)
    unfold Parser.flawOf?
    by_cases hp : p.isLevel = true
    · rw [if_pos hp]
      by_cases hlt : levels < Parser.maxLevels
      · rw [if_pos hlt]
        exact h.leftmost (levels + 1)
      · rw [if_neg hlt]
        exact .tooDeep
    · rw [if_neg hp]
      exact h.leftmost levels

namespace Parser

theorem literalError?_ne_tooDeep (t : Token) : literalError? t ≠ some .tooDeep := by
  unfold literalError?
  split
  · split
    · simp
    · split <;> simp
  · simp

/-- A text that has a derivation is nested too deeply, or the leftmost integer that is wrong is
reported, or there is nothing wrong and the text is a program. -/
theorem parseTokens_cases {text : List Char} {d : Tree (.non .program)} {tokens : List Token}
    (h : scan growing text = .ok (d, tokens)) :
    (maxLevels < d.height ∧ parseTokens text = .error .tooDeep) ∨
    (∃ e, tokens.findSome? literalError? = some e ∧ parseTokens text = .error e) ∨
    (d.height ≤ maxLevels ∧ tokens.findSome? literalError? = none ∧
      ∃ e, parseTokens text = .ok (e, tokens) ∧ e.bare = d.sense) := by
  have hyield := yield_of_scan h
  have hstands := scan_alike lowering_growing_alike text
  have hchecks := scan_alike lowering_collecting_checks text
  rw [h] at hstands
  unfold parseTokens
  generalize scan lowering text = x at hstands hchecks ⊢
  cases hstands with
  | @ok part _ _ hstand =>
    obtain ⟨ts, hcollect, hleft⟩ := hchecks.of_ok
    obtain rfl := collecting_eq hcollect
    have hfound := hstand.2 0 (Nat.zero_le _)
    have hleft := hleft 0
    dsimp only
    generalize part.flaw? 0 = flaw at hfound hleft ⊢
    cases hfound with
    | nothing hfits hread =>
      rw [hyield] at hread
      exact .inr (.inr ⟨by omega, literalErrors_eq_none.2 hread, _, rfl, hstand.1⟩)
    | tooDeep hdeep => exact .inl ⟨by omega, rfl⟩
    | @literal t e _ he =>
      refine .inr (.inl ⟨e, hleft.eq_of_ne ?_, rfl⟩)
      rintro rfl
      exact literalError?_ne_tooDeep t he

end Parser

end Featherweight
