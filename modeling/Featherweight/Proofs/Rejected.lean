import Featherweight.Proofs.Placed
import Featherweight.Proofs.Viable

/-!
# Featherweight.Proofs.Rejected

What is known of a text that is refused.

* `Parser.shifted` are the tokens that are read before the text ends or is refused.
* `Parser.Holds` : the stack holds exactly these tokens at any time.
* `parse_error_earliest` : they begin some program, but not with the token that is refused behind
  them, and they are none themselves if more of them was wanted.
* `parse_expected_possible` : the kinds that are listed as expected are some, and each of them can
  come next in a program.
-/

namespace Featherweight

namespace Parser

/-- The tokens that are read of a text before it ends or is refused. -/
def shifted (text : List Char) : List Token :=
  match scan lowering text with
  | .ok (_, tokens) => tokens
  | .error r => r.tokens

/-- The stack holds the tokens that have been read, as if their texts did not matter. -/
structure Holds (bound : Nat) (c : Config Tree) : Prop where
  linked : c.stack.Linked
  yield : c.stack.yield = c.tokens.reverse.map Token.lexeme
  after : Stack.after? bound (c.tokens.reverse.map Token.kind) [] = some c.stack.erase

variable {bound : Nat} {c : Config Tree} {text : List Char} {mistake : Mistake}

theorem Holds.kinds (h : Holds bound c) :
    c.stack.yield.map Lexeme.kind = c.tokens.reverse.map Token.kind := by
  rw [h.yield, List.map_map]
  rfl

theorem Holds.of_steps (h : Relation.ReflTransGen (Step growing bound) (.start Tree text) c) :
    Holds bound c := by
  induction h with
  | refl => exact ⟨trivial, rfl, rfl⟩
  | tail _ hstep ih =>
    cases hstep with
    | gap => exact ⟨ih.linked, ih.yield, ih.after⟩
    | @read cursor behind stack stack' tokens t ht hf =>
      have hs := feed_growing bound t.kind t.text ih.linked
      have hread : feed (fun _ _ => ()) bound stack.erase t.kind () = .read stack'.erase := by
        rw [feed_erase growing.node bound stack t.kind (growing.leaf t), hf, Reply.erase]
      have hf' : feed growing.node bound stack t.kind (.leaf t.kind t.text) = .read stack' := hf
      rw [hf'] at hs
      refine ⟨hs.1, ?_, ?_⟩
      · rw [hs.2, ih.yield, List.reverse_cons, List.map_append]
        rfl
      · rw [List.reverse_cons, List.map_append]
        exact Stack.after?_concat ih.after hread

/-- What stops a reading. -/
inductive Stops (bound : Nat) (c : Config Tree) : Mistake → Prop where
  | character {e : Char} : Stops bound c (.character e)
  | token {admits : Terminal → Bool} {t : Token} {behind : Cursor} {stack : Stack Tree} :
      c.cursor.token? admits = some (t, behind) →
      feed growing.node bound c.stack t.kind (growing.leaf t) = .refused stack →
      Stops bound c (.token t (stack.expected bound))
  | ending : c.cursor.rest = [] →
      (∀ d, feed growing.node bound c.stack .eof (.leaf .eof "") ≠ .finished d) →
      Stops bound c .endOfText

theorem feed_of_not_admits {V : Symbol → Type} (build : Build V) (fuel : Nat) {stack : Stack V}
    {t : Terminal} (v : V (.term t)) (h : stack.state.admits t = false) :
    feed build fuel stack t v = .refused stack := by
  cases fuel with
  | zero => rfl
  | succ fuel =>
    have ha : stack.state.action? t = none := by simpa [State.admits] using h
    simp only [feed, ha]

/-- A text is refused in a state that the reading comes to, and what stops it is reported. -/
theorem stops_of_scan_error {r : Rejection} (h : scan growing text = .error r) :
    ∃ c, Relation.ReflTransGen (Step growing (16 * (text.length + 2))) (.start Tree text) c ∧
      r.tokens = c.tokens.reverse ∧ Stops (16 * (text.length + 2)) c r.mistake := by
  obtain ⟨c, hsteps, hend⟩ := scan_ends growing text
  refine ⟨c, hsteps, ?_⟩
  rw [h] at hend
  generalize hout : (Except.error r : Except Rejection (Tree (.non .program) × List Token)) = out
    at hend
  cases hend with
  | done hrest =>
    unfold finish at hout
    dsimp only at hout
    split at hout
    · cases hout
    · rename_i hne
      cases hout
      exact ⟨rfl, .ending hrest fun d hd => hne d hd⟩
  | unreadable hnone =>
    cases hout
    refine ⟨rfl, ?_⟩
    unfold unreadable
    split
    · rename_i t behind ht
      exact .token ht (feed_of_not_admits _ _ _ (Cursor.admits_of_token?_eq_none hnone ht))
    · exact .character
  | refused ht hf =>
    cases hout
    exact ⟨rfl, .token ht hf⟩

theorem literalError?_ne_misread (t : Token) (mistake : Mistake) (point : Point) (excerpt : String) :
    literalError? t ≠ some (.refused (.misread mistake point excerpt)) := by
  unfold literalError?
  split
  · split
    · simp
    · split <;> simp
  · simp

/-- Only a text that cannot be read is misread. -/
theorem scan_of_misread {text : String} {point : Point} {excerpt : String}
    (h : parse text = .error (.refused (.misread mistake point excerpt))) :
    ∃ r, scan growing text.toList = .error r ∧ r.mistake = mistake ∧
      shifted text.toList = r.tokens := by
  cases hscan : scan growing text.toList with
  | error r =>
    have hs := scan_alike lowering_growing_alike text.toList
    rw [hscan] at hs
    unfold parse parseTokens at h
    unfold shifted
    generalize scan lowering text.toList = x at h hs ⊢
    cases hs
    cases h
    exact ⟨r, rfl, rfl, rfl⟩
  | ok result =>
    obtain ⟨d, tokens⟩ := result
    obtain ⟨e, flaw, -, hfound, hparse⟩ := exists_found_of_scan hscan
    rw [parse, hparse] at h
    cases hfound with
    | nothing _ _ => cases h
    | tooDeep _ => cases h
    | literal _ he =>
      cases h
      exact absurd he (literalError?_ne_misread _ _ _ _)

/-- A misread text is refused where the reading of it stops. -/
theorem stops_of_misread {text : String} {point : Point} {excerpt : String}
    (h : parse text = .error (.refused (.misread mistake point excerpt))) :
    ∃ c, Relation.ReflTransGen (Step growing (16 * (text.toList.length + 2)))
        (.start Tree text.toList) c ∧
      shifted text.toList = c.tokens.reverse ∧
      Stops (16 * (text.toList.length + 2)) c mistake := by
  obtain ⟨r, hscan, hmistake, hshifted⟩ := scan_of_misread h
  obtain ⟨c, hsteps, htokens, hstops⟩ := stops_of_scan_error hscan
  exact ⟨c, hsteps, hshifted.trans htokens, hmistake ▸ hstops⟩

/-- The tokens that are read always begin some program. -/
theorem viable_shifted (text : List Char) : Viable ((shifted text).map Token.kind) := by
  have hs := scan_alike lowering_growing_alike text
  unfold shifted
  generalize scan lowering text = x at hs ⊢
  generalize hy : scan growing text = y at hs
  cases hs with
  | @error r =>
    obtain ⟨c, hsteps, htokens, -⟩ := stops_of_scan_error hy
    have hholds := Holds.of_steps hsteps
    have hviable := hholds.linked.viable
    rw [hholds.kinds, ← htokens] at hviable
    exact hviable
  | @ok _ d tokens _ =>
    have hyield := (scan_growing_iff.1 ⟨tokens, hy, rfl⟩).yield trivial
    refine ⟨[], d, ?_⟩
    rw [hyield, List.append_nil]
    exact List.map_map

section Stopped

variable (hsteps : Relation.ReflTransGen (Step growing (16 * (text.length + 2))) (.start Tree text) c)
include hsteps

/-- The fuel of the parser is enough for the tokens that can be read. -/
theorem enough_of_steps :
    12 * (c.tokens.reverse.map Token.kind).length < 16 * (text.length + 2) := by
  obtain ⟨before, htext, hplaced, -⟩ := Placed.of_steps hsteps
  have hle := hplaced.length_le
  rw [htext, List.length_append, List.length_map]
  omega

theorem weight_of_steps : c.stack.weight < 16 * (text.length + 2) := by
  have hle := Stack.weight_of_after? (Holds.of_steps hsteps).after
  have hlt := enough_of_steps hsteps
  rw [Stack.weight_erase, Stack.weight_nil] at hle
  omega

end Stopped

end Parser

/-- The tokens that are read before a text is refused begin some program. If the token behind them is
refused, it stands there in the text, and no program begins with them and a token of its kind; if the
text ends too early, they are all its tokens and no program. -/
theorem parse_error_earliest (text : String) (err : ParseError) (h : parse text = .error err) :
    Viable ((Parser.shifted text.toList).map Token.kind) ∧
    (∀ found expected point excerpt,
      err = .refused (.misread (.token found expected) point excerpt) →
      (∃ before rest, text.toList = before ++ (found.text.toList ++ rest) ∧
        Laid before ((Parser.shifted text.toList).map Token.lexeme)) ∧
      ¬ Viable ((Parser.shifted text.toList).map Token.kind ++ [found.kind])) ∧
    (∀ point excerpt, err = .refused (.misread .endOfText point excerpt) →
      Laid text.toList ((Parser.shifted text.toList).map Token.lexeme) ∧
      ¬ Sentence ((Parser.shifted text.toList).map Token.kind)) := by
  refine ⟨Parser.viable_shifted _, ?_, ?_⟩
  · rintro found expected point excerpt rfl
    obtain ⟨c, hsteps, hshifted, hstops⟩ := Parser.stops_of_misread h
    obtain ⟨before, htext, hplaced, -⟩ := Placed.of_steps hsteps
    rw [hshifted]
    cases hstops with
    | @token admits t behind stack ht hf =>
      refine ⟨⟨before, behind.rest, ?_, hplaced.laid⟩, fun hviable => ?_⟩
      · rw [← (Cursor.token?_eq_some ht).2.2.1]
        exact htext
      · obtain ⟨stack', hread⟩ := feed_read_of_viable hviable (Parser.enough_of_steps hsteps)
          (Parser.Holds.of_steps hsteps).after (growing.leaf found)
        rw [hread] at hf
        cases hf
  · rintro point excerpt rfl
    obtain ⟨c, hsteps, hshifted, hstops⟩ := Parser.stops_of_misread h
    obtain ⟨before, htext, hplaced, -⟩ := Placed.of_steps hsteps
    rw [hshifted]
    cases hstops with
    | ending hrest hf =>
      rw [hrest, List.append_nil] at htext
      refine ⟨by rw [htext]; exact hplaced.laid, fun hsentence => ?_⟩
      obtain ⟨d, hfinished⟩ := feed_finished_of_sentence hsentence (Parser.enough_of_steps hsteps)
        (Parser.Holds.of_steps hsteps).after (.leaf .eof "")
      exact hf d hfinished

theorem parse_error_earliest_else :
    (∃ expected, parse "1; else;" = .error (.refused (.misread
      (.token ⟨.keyword .elseWord, "else", ⟨⟨3, 1, 4⟩, ⟨7, 1, 8⟩⟩⟩ expected) ⟨3, 1, 4⟩
      "1; else;\n   ^\n"))) ∧
    Viable [.int, .semicolon] ∧ ¬ Viable [.int, .semicolon, .keyword .elseWord] ∧
    parse "if (a" = .error (.refused (.misread .endOfText ⟨4, 1, 5⟩ "if (a\n    ^\n")) ∧
    ¬ Sentence [.keyword .ifWord, .lpar, .name] := by
  have helse : ∃ expected, parse "1; else;" = .error (.refused (.misread
      (.token ⟨.keyword .elseWord, "else", ⟨⟨3, 1, 4⟩, ⟨7, 1, 8⟩⟩⟩ expected) ⟨3, 1, 4⟩
      "1; else;\n   ^\n")) := ⟨_, rfl⟩
  have hif : parse "if (a" =
      .error (.refused (.misread .endOfText ⟨4, 1, 5⟩ "if (a\n    ^\n")) := by rfl
  obtain ⟨expected, h⟩ := helse
  obtain ⟨hviable, htoken, -⟩ := parse_error_earliest _ _ h
  obtain ⟨-, -, hend⟩ := parse_error_earliest _ _ hif
  exact ⟨⟨expected, h⟩, hviable, (htoken _ _ _ _ rfl).2, hif, (hend _ _ rfl).2⟩

theorem Refusal.message_token (found : Token) {expected : List Terminal} (point : Point)
    (excerpt : String) (h : expected ≠ []) :
    (misread (.token found expected) point excerpt).message =
      "Unexpected token " ++ Text.quoted found.text ++ "; expected one of: " ++
        ", ".intercalate (expected.map Terminal.label) := by
  cases expected with
  | nil => exact absurd rfl h
  | cons A rest => rfl

/-- If a token is refused, the message lists the kinds that the machine would take in the state in
which it stopped. There are some, and the tokens that were read go on with each of them in some
program, or are a program themselves where the end of the text is listed. -/
theorem parse_expected_possible (text : String) (found : Token) (expected : List Terminal)
    (point : Point) (excerpt : String)
    (h : parse text = .error (.refused (.misread (.token found expected) point excerpt))) :
    expected ≠ [] ∧
    (Refusal.misread (.token found expected) point excerpt).message =
      "Unexpected token " ++ Text.quoted found.text ++ "; expected one of: " ++
        ", ".intercalate (expected.map Terminal.label) ∧
    (∀ A ∈ expected,
      (A = .eof → Sentence ((Parser.shifted text.toList).map Token.kind)) ∧
      (A ≠ .eof → Viable ((Parser.shifted text.toList).map Token.kind ++ [A]))) ∧
    ∃ stack stack' : Stack Tree,
      Stack.after? (16 * (text.toList.length + 2)) ((Parser.shifted text.toList).map Token.kind) [] =
        some stack.erase ∧
      feed growing.node (16 * (text.toList.length + 2)) stack found.kind (growing.leaf found) =
        .refused stack' ∧
      expected = stack'.expected (16 * (text.toList.length + 2)) := by
  obtain ⟨c, hsteps, hshifted, hstops⟩ := Parser.stops_of_misread h
  have hholds := Parser.Holds.of_steps hsteps
  have hweight := Parser.weight_of_steps hsteps
  rw [hshifted]
  cases hstops with
  | @token admits t behind stack ht hf =>
    obtain ⟨hlinked, hyield, hle⟩ := hholds.linked.of_feed_refused hf
    have hne := hlinked.expected_ne_nil (Nat.lt_of_le_of_lt hle hweight)
    refine ⟨hne, Refusal.message_token found point excerpt hne, fun A hA => ?_, c.stack, stack,
      hholds.after, hf, rfl⟩
    have htakes := hlinked.of_takes (List.mem_filter.1 hA).2
    rw [hyield, hholds.kinds] at htakes
    exact htakes

theorem parse_expected_possible_argument :
    parse "f(1;" = .error (.refused (.misread
      (.token ⟨.semicolon, ";", ⟨⟨3, 1, 4⟩, ⟨4, 1, 5⟩⟩⟩ [.comma, .rpar]) ⟨3, 1, 4⟩
      "f(1;\n   ^\n")) ∧
    Viable [.name, .lpar, .int, .comma] ∧ Viable [.name, .lpar, .int, .rpar] := by
  have h : parse "f(1;" = .error (.refused (.misread
      (.token ⟨.semicolon, ";", ⟨⟨3, 1, 4⟩, ⟨4, 1, 5⟩⟩⟩ [.comma, .rpar]) ⟨3, 1, 4⟩
      "f(1;\n   ^\n")) := by rfl
  obtain ⟨-, -, hpossible, -⟩ := parse_expected_possible _ _ _ _ _ h
  have hcomma := hpossible .comma (by simp)
  have hrpar := hpossible .rpar (by simp)
  exact ⟨h, hcomma.2 (by simp), hrpar.2 (by simp)⟩

end Featherweight
