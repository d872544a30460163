import Featherweight.Proofs.Parametric
import Featherweight.Proofs.Reading

/-!
# Featherweight.Proofs.Soundness

Nothing outside the grammar is accepted, and no character is skipped.

* `Stack.yield` : the tokens below the symbols on the stack, which are the tokens read so far.
* `feed_growing` : what one terminal does to them.
* `parseTokens_eq_ok` and `parseTokens_of_scan` : a text is a program if and only if it has a
  derivation that stays within the limits.
* `parse_sound` : an accepted text is laid out of tokens and gaps, the tokens are the yield of a
  derivation, and the tree is what the derivation means.
-/

namespace Featherweight

namespace Stack

def yield : Stack Tree → List Lexeme
  | [] => []
  | e :: below => yield below ++ e.value.yield

theorem yield_eq_contents (stack : Stack Tree) :
    stack.yield = stack.contents fun _ => Tree.yield := by
  induction stack with
  | nil => rfl
  | cons e below ih => rw [yield, contents, ih]

end Stack

theorem Forest.yield_ofValues (word : List Symbol) (values : Values Tree word) :
    (ofValues word values).yield = values.contents (fun _ => Tree.yield) word := by
  induction word with
  | nil => rfl
  | cons X word ih => exact congrArg (values.1.yield ++ ·) (ih values.2)

/-- The parts that come off the stack hold the tokens that are gone. -/
theorem Stack.pop?_eq_some {word : List Symbol} {stack below : Stack Tree}
    {values : Values Tree word} (h : stack.pop? word = some (values, below)) :
    stack.yield = below.yield ++ (Forest.ofValues word values).yield := by
  rw [yield_eq_contents, yield_eq_contents, Forest.yield_ofValues]
  exact contents_of_pop? h

/-- What one terminal does to the stack and the tokens on it. -/
def Reply.Sound (stack : Stack Tree) (l : Lexeme) : Reply Tree → Prop
  | .read stack' => stack'.Linked ∧ stack'.yield = stack.yield ++ [l]
  | .finished d => d.yield = stack.yield
  | .refused _ => True

theorem Tree.yield_cast {A : Nonterminal} (h : A = .program) (d : Tree (.non A)) :
    (h ▸ d : Tree (.non .program)).yield = d.yield := by
  subst h
  rfl

theorem feed_growing (fuel : Nat) {stack : Stack Tree} (t : Terminal) (text : String)
    (hl : stack.Linked) :
    (feed growing.node fuel stack t (.leaf t text)).Sound stack ⟨t, text⟩ := by
  have hnode : ∀ p values, (growing.node p values).yield =
      Values.contents (fun _ => Tree.yield) p.rhs values :=
    fun p values => Forest.yield_ofValues p.rhs values
  have h := feed_carries (fun _ => Tree.yield) hnode fuel (.leaf t text) hl
  revert h
  cases feed growing.node fuel stack t (.leaf t text) <;>
    simp only [Reply.Carries, Reply.Sound, Stack.yield_eq_contents, Tree.yield, imp_self]

namespace Scans

variable {bound : Nat} {d : Tree (.non .program)} {stack : Stack Tree} {text : List Char}
  {ls : List Lexeme}

theorem laid (h : Scans bound d stack text ls) : Laid text ls := by
  induction h with
  | done => exact .nil
  | @blank _ c _ _ hc _ ih =>
    have hgap : Gap [c] := .blanks (by simp) (by simpa using hc)
    exact .gap hgap ih
  | line hc _ _ ih => exact .gap (.line hc) ih
  | @block _ comment rest _ hc _ ih =>
    have hsplit : '/' :: '*' :: (comment ++ '*' :: '/' :: rest) =
        ('/' :: '*' :: (comment ++ ['*', '/'])) ++ rest := by simp
    rw [hsplit]
    exact .gap (.block hc) ih
  | @token _ _ text kind n ls _ hfind _ _ ih =>
    obtain ⟨-, -, hspelt⟩ := Token.spelt_of_mem_readings (List.mem_of_find?_eq_some hfind)
    have hl := Laid.token hspelt ih
    rwa [String.toList_ofList, List.take_append_drop] at hl

/-- The tokens on the stack and those still ahead are the yield of the derivation. -/
theorem yield (h : Scans bound d stack text ls) (hl : stack.Linked) :
    d.yield = stack.yield ++ ls := by
  induction h with
  | done hf =>
    have hs := feed_growing bound .eof "" hl
    rw [hf] at hs
    simpa [Reply.Sound] using hs
  | blank _ _ ih => exact ih hl
  | line _ _ _ ih => exact ih hl
  | block _ _ ih => exact ih hl
  | @token _ _ text kind n _ _ _ hf _ ih =>
    have hs := feed_growing bound kind (String.ofList (text.take n)) hl
    rw [hf] at hs
    obtain ⟨hl', hy⟩ := hs
    rw [ih hl', hy]
    simp

end Scans

namespace Parser

variable {text : List Char} {d : Tree (.non .program)} {e : Expr} {tokens : List Token}

theorem yield_of_scan (h : scan growing text = .ok (d, tokens)) :
    d.yield = tokens.map Token.lexeme :=
  (scan_growing_iff.1 ⟨tokens, h, rfl⟩).yield trivial

theorem parseTokens_eq_ok (h : parseTokens text = .ok (e, tokens)) :
    ∃ d, scan growing text = .ok (d, tokens) ∧ d.height ≤ maxLevels ∧
      tokens.findSome? literalError? = none ∧ e.bare = d.sense := by
  obtain ⟨part, hscan, -⟩ := scan_of_parseTokens h
  have hs := scan_alike lowering_growing_alike text
  rw [hscan] at hs
  obtain ⟨d, hgrow, -⟩ := hs.of_ok
  obtain ⟨e', flaw, hsense, hfound, hparse⟩ := exists_found_of_scan hgrow
  rw [h] at hparse
  rw [yield_of_scan hgrow] at hfound
  cases hfound with
  | nothing hfits hread =>
    cases hparse
    exact ⟨d, hgrow, by omega, literalErrors_eq_none.2 hread, hsense⟩
  | tooDeep _ => cases hparse
  | literal _ _ => cases hparse

/-- Where the integers can be read, a text that has a derivation is a program unless it is nested too
deeply. -/
theorem parseTokens_of_scan (h : scan growing text = .ok (d, tokens))
    (hlit : tokens.findSome? literalError? = none) :
    if maxLevels < d.height then parseTokens text = .error .tooDeep
    else ∃ e, parseTokens text = .ok (e, tokens) ∧ e.bare = d.sense := by
  obtain ⟨e, flaw, hsense, hfound, hparse⟩ := exists_found_of_scan h
  rw [yield_of_scan h] at hfound
  rw [hfound.eq_of_readable (literalErrors_eq_none.1 hlit), Nat.zero_add] at hparse
  split
  · rename_i hdeep
    rw [hparse, if_pos hdeep]
    rfl
  · rename_i hfits
    refine ⟨e, ?_, hsense⟩
    rw [hparse, if_neg hfits]
    rfl

theorem parse_of_scan {text : String} (h : scan growing text.toList = .ok (d, tokens))
    (hread : ∀ l ∈ d.yield, l.Readable) :
    if maxLevels < d.height then parse text = .error .tooDeep
    else ∃ e, parse text = .ok e ∧ e.bare = d.sense := by
  rw [yield_of_scan h] at hread
  have hparse := parseTokens_of_scan h (literalErrors_eq_none.2 hread)
  by_cases hdeep : maxLevels < d.height
  · rw [if_pos hdeep] at hparse ⊢
    exact parse_eq_error.2 hparse
  · rw [if_neg hdeep] at hparse ⊢
    obtain ⟨e, he, hsense⟩ := hparse
    exact ⟨e, parse_eq_ok.2 ⟨tokens, he⟩, hsense⟩

end Parser

/-- An accepted text is laid out of the tokens that were read and gaps, the tokens are the yield of a
derivation of a program, and the tree is what that derivation means. -/
theorem parse_sound (text : String) (e : Expr) (h : parse text = .ok e) :
    ∃ (tokens : List Token) (d : Tree (.non .program)),
      Parser.parseTokens text.toList = .ok (e, tokens) ∧
      Laid text.toList (tokens.map Token.lexeme) ∧
      d.yield = tokens.map Token.lexeme ∧ e.bare = d.sense := by
  obtain ⟨tokens, hp⟩ := parse_eq_ok.1 h
  obtain ⟨d, hscan, -, -, hsense⟩ := Parser.parseTokens_eq_ok hp
  have hscans := Parser.scan_growing_iff.1 ⟨tokens, hscan, rfl⟩
  exact ⟨tokens, d, hp, hscans.laid, hscans.yield trivial, hsense⟩

theorem parse_sound_call :
    parse "f(-1);//" = .ok (.call (.var "f" (some ⟨some 1, some 1, some 1, some 2⟩))
      [.literal (.int (-1)) (some ⟨some 1, some 3, some 1, some 4⟩)]
      (some ⟨some 1, some 1, some 1, some 6⟩)) ∧
    ∃ (tokens : List Token) (d : Tree (.non .program)),
      (Parser.parseTokens "f(-1);//".toList).map (·.2) = .ok tokens ∧
      Laid "f(-1);//".toList (tokens.map Token.lexeme) ∧
      d.yield = tokens.map Token.lexeme ∧
      Expr.call (.var "f" none) [.literal (.int (-1)) none] none = d.sense := by
  have h : parse "f(-1);//" = .ok (.call (.var "f" (some ⟨some 1, some 1, some 1, some 2⟩))
      [.literal (.int (-1)) (some ⟨some 1, some 3, some 1, some 4⟩)]
      (some ⟨some 1, some 1, some 1, some 6⟩)) := by rfl
  obtain ⟨tokens, d, htokens, hlaid, hyield, hsense⟩ := parse_sound _ _ h
  exact ⟨h, tokens, d, by rw [htokens]; rfl, hlaid, hyield, hsense⟩

end Featherweight
