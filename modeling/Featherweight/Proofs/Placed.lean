import Featherweight.Proofs.Items
import Featherweight.Proofs.Reading
import Mathlib.Logic.Relation

/-!
# Featherweight.Proofs.Placed

The reading of a text as a system that takes step after step, and where the tokens stand.

* `Parser.Step` : one gap is passed over or one token is read.
* `Parser.Ending` : how a reading ends when there is no further step.
* `scan_ends` : the parser takes steps until there is none and ends so.
* `Placed text tokens` : the text consists of these tokens and gaps, and each token knows its place.
* `Placed.of_steps` : so it is with the text behind the cursor at any time.
-/

namespace Featherweight

namespace Parser

/-- A reading under way; the tokens come latest first. -/
structure Config (V : Symbol → Type) where
  cursor : Cursor
  stack : Stack V
  tokens : List Token

def Config.start (V : Symbol → Type) (text : List Char) : Config V := ⟨.ofText text, [], []⟩

variable {V : Symbol → Type} {A : Algebra V} {bound fuel : Nat}

inductive Step (A : Algebra V) (bound : Nat) : Config V → Config V → Prop where
  | gap {cursor : Cursor} {stack : Stack V} {tokens : List Token} :
      Token.ignored cursor.rest ≠ 0 →
      Step A bound ⟨cursor, stack, tokens⟩
        ⟨cursor.advance (Token.ignored cursor.rest), stack, tokens⟩
  | read {cursor behind : Cursor} {stack stack' : Stack V} {tokens : List Token} {t : Token} :
      cursor.token? stack.state.admits = some (t, behind) →
      feed A.node bound stack t.kind (A.leaf t) = .read stack' →
      Step A bound ⟨cursor, stack, tokens⟩ ⟨behind, stack', t :: tokens⟩

/-- Where there is no further step, the text is at its end, no token can be read, or the token that
can be read is refused. -/
inductive Ending (A : Algebra V) (bound : Nat) (c : Config V) :
    Except Rejection (V (.non .program) × List Token) → Prop where
  | done : c.cursor.rest = [] → Ending A bound c (finish A bound c.stack c.tokens)
  | unreadable {e : Char} : c.cursor.token? c.stack.state.admits = none →
      Ending A bound c
        (.error ⟨unreadable bound c.cursor e c.stack, c.cursor.point, c.tokens.reverse⟩)
  | refused {t : Token} {behind : Cursor} {stack : Stack V} :
      c.cursor.token? c.stack.state.admits = some (t, behind) →
      feed A.node bound c.stack t.kind (A.leaf t) = .refused stack →
      Ending A bound c (.error ⟨.token t (stack.expected bound), c.cursor.point, c.tokens.reverse⟩)

end Parser

namespace Cursor

variable {c behind : Cursor} {admits : Terminal → Bool} {t : Token}

/-- What is known of a token that can be read. -/
theorem token?_eq_some (h : c.token? admits = some (t, behind)) :
    admits t.kind = true ∧ t.lexeme.Spelt ∧ c.rest = t.text.toList ++ behind.rest ∧
      t.span = ⟨c.point, behind.point⟩ ∧ behind.point = c.point.past t.text.toList := by
  obtain ⟨⟨kind, n⟩, hfind, hr⟩ := Option.map_eq_some_iff.1 h
  cases hr
  obtain ⟨-, -, hspelt⟩ := Token.spelt_of_mem_readings (List.mem_of_find?_eq_some hfind)
  have hadmits := List.find?_some hfind
  rw [String.toList_ofList]
  exact ⟨hadmits, hspelt, (c.take_append_rest_advance n).symm, rfl, rfl⟩

/-- Where no token of an admitted kind can be read, no other token is admitted. -/
theorem admits_of_token?_eq_none (h : c.token? admits = none)
    (ht : c.token? (fun _ => true) = some (t, behind)) : admits t.kind = false := by
  obtain ⟨⟨kind, n⟩, hfind, hr⟩ := Option.map_eq_some_iff.1 ht
  cases hr
  have hnone := List.find?_eq_none.1 (Option.map_eq_none_iff.1 h) _ (List.mem_of_find?_eq_some hfind)
  simpa using hnone

end Cursor

theorem Lexeme.Spelt.kind_ne_eof {l : Lexeme} (h : l.Spelt) : l.kind ≠ .eof := by
  intro hk
  simp [Spelt, hk] at h

theorem Lexeme.Spelt.text_ne_nil {l : Lexeme} (h : l.Spelt) : l.text.toList ≠ [] := by
  obtain ⟨kind, text⟩ := l
  cases kind with
  | eof => cases h
  | int => exact h.1
  | name =>
    obtain ⟨c, rest, hc, -⟩ := h
    simp [hc]
  | op o =>
    obtain rfl : text = o.symbol := h
    cases o <;> decide
  | keyword k =>
    obtain rfl : text = k.text := h
    cases k <;> decide
  | _ =>
    cases h
    decide

namespace Token

/-- What is ignored is a gap. -/
theorem gap_of_ignored {text : List Char} (h : ignored text ≠ 0) :
    Gap (text.take (ignored text)) := by
  revert h
  fun_cases ignored text with
  | case1 rest =>
    intro _
    rw [Nat.add_comm, List.take_succ_cons, List.take_succ_cons, take_length_takeWhile]
    exact .line fun hmem => by simpa using List.mem_takeWhile_imp hmem
  | case2 rest =>
    intro h
    cases hend : commentEnd? 2 rest with
    | none => simp [hend] at h
    | some m =>
      obtain ⟨comment, rest', rfl, rfl, hfirst⟩ := commentEnd?_eq_some hend
      have hsplit : '/' :: '*' :: (comment ++ '*' :: '/' :: rest') =
          ('/' :: '*' :: (comment ++ ['*', '/'])) ++ rest' := by simp
      rw [Option.getD_some, hsplit, List.take_left' (by simp; omega)]
      exact .block hfirst
  | case3 =>
    intro h
    rw [take_length_takeWhile]
    have hne : text.takeWhile isBlank ≠ [] := List.length_pos_iff.1 (Nat.pos_of_ne_zero h)
    exact .blanks hne fun c hc => List.mem_takeWhile_imp hc

theorem ignored_nil : ignored [] = 0 := rfl

end Token

namespace Parser

variable {V : Symbol → Type} {A : Algebra V} {bound fuel : Nat}

/-- A reading with fuel enough takes steps until there is none. -/
theorem scanFrom_ends (c : Config V) (hfuel : c.cursor.rest.length < fuel) :
    ∃ c', Relation.ReflTransGen (Step A bound) c c' ∧
      Ending A bound c' (scanFrom A bound fuel c.cursor c.stack c.tokens) := by
  induction fuel generalizing c with
  | zero => exact absurd hfuel (Nat.not_lt_zero _)
  | succ fuel ih =>
    obtain ⟨cursor, stack, tokens⟩ := c
    unfold scanFrom
    dsimp only at hfuel ⊢
    split
    · rename_i n hn
      have hn : Token.ignored cursor.rest = n + 1 := hn
      have hstep : Step A bound ⟨cursor, stack, tokens⟩ ⟨cursor.advance (n + 1), stack, tokens⟩ := by
        rw [← hn]
        exact .gap (by omega)
      have hrest : cursor.rest ≠ [] := by
        intro hnil
        rw [hnil, Token.ignored_nil] at hn
        cases hn
      have hlen : (cursor.advance (n + 1)).rest.length < fuel := by
        have := List.length_pos_iff.2 hrest
        simp only [Cursor.advance, List.length_drop]
        omega
      obtain ⟨c', hsteps, hend⟩ := ih ⟨cursor.advance (n + 1), stack, tokens⟩ hlen
      exact ⟨c', .head hstep hsteps, hend⟩
    · rename_i hnil
      exact ⟨⟨cursor, stack, tokens⟩, .refl, .done hnil⟩
    · cases ht : cursor.token? stack.state.admits with
      | none => exact ⟨⟨cursor, stack, tokens⟩, .refl, .unreadable ht⟩
      | some reading =>
        obtain ⟨t, behind⟩ := reading
        obtain ⟨-, hspelt, hrest, -⟩ := Cursor.token?_eq_some ht
        dsimp only
        cases hf : feed A.node bound stack t.kind (A.leaf t) with
        | read stack' =>
          have hlen : behind.rest.length < fuel := by
            have hpos : 0 < t.text.toList.length := List.length_pos_iff.2 hspelt.text_ne_nil
            rw [hrest, List.length_append] at hfuel
            omega
          obtain ⟨c', hsteps, hend⟩ := ih ⟨behind, stack', t :: tokens⟩ hlen
          exact ⟨c', .head (.read ht hf) hsteps, hend⟩
        | finished value => exact absurd (feed_finished_eof hf) hspelt.kind_ne_eof
        | refused stack' => exact ⟨⟨cursor, stack, tokens⟩, .refl, .refused ht hf⟩

theorem scan_ends (A : Algebra V) (text : List Char) :
    ∃ c, Relation.ReflTransGen (Step A (16 * (text.length + 2))) (.start V text) c ∧
      Ending A (16 * (text.length + 2)) c (scan A text) :=
  scanFrom_ends (.start V text) (Nat.lt_succ_self _)

end Parser

/-! ## Places -/

/-- A text is made of gaps and of these tokens, in this order, and each token knows its place. -/
inductive Placed : List Char → List Token → Prop where
  | nil : Placed [] []
  | gap {before gap : List Char} {tokens : List Token} : Placed before tokens → Gap gap →
      Placed (before ++ gap) tokens
  | token {before : List Char} {tokens : List Token} {t : Token} : Placed before tokens →
      t.lexeme.Spelt →
      t.span = ⟨Point.start.past before, Point.start.past (before ++ t.text.toList)⟩ →
      Placed (before ++ t.text.toList) (tokens ++ [t])

theorem Laid.append {a b : List Char} {ls ms : List Lexeme} (ha : Laid a ls) (hb : Laid b ms) :
    Laid (a ++ b) (ls ++ ms) := by
  induction ha with
  | nil => exact hb
  | gap hg _ ih =>
    rw [List.append_assoc]
    exact .gap hg ih
  | token hl _ ih =>
    rw [List.append_assoc]
    exact .token hl ih

namespace Placed

variable {text : List Char} {tokens : List Token}

theorem laid (h : Placed text tokens) : Laid text (tokens.map Token.lexeme) := by
  induction h with
  | nil => exact .nil
  | @gap before gap tokens _ hg ih =>
    have hgap : Laid gap [] := by simpa using Laid.gap hg .nil
    simpa using ih.append hgap
  | @token before tokens t _ hl _ ih =>
    have htoken : Laid t.text.toList [t.lexeme] := by simpa [Token.lexeme] using Laid.token hl .nil
    simpa using ih.append htoken

theorem length_le (h : Placed text tokens) : tokens.length ≤ text.length := by
  induction h with
  | nil => exact Nat.le_refl _
  | gap _ _ ih =>
    rw [List.length_append]
    omega
  | @token before tokens t _ hl _ ih =>
    have hpos : 0 < t.text.toList.length := List.length_pos_iff.2 hl.text_ne_nil
    rw [List.length_append, List.length_append, List.length_singleton]
    omega

variable {V : Symbol → Type} {A : Algebra V} {bound : Nat} {c : Parser.Config V}

/-- What lies behind the cursor is made of the tokens that have been read and gaps. -/
theorem of_steps (h : Relation.ReflTransGen (Parser.Step A bound) (.start V text) c) :
    ∃ before, text = before ++ c.cursor.rest ∧ Placed before c.tokens.reverse ∧
      c.cursor.point = Point.start.past before := by
  induction h with
  | refl => exact ⟨[], rfl, .nil, rfl⟩
  | tail _ hstep ih =>
    obtain ⟨before, htext, hplaced, hpoint⟩ := ih
    cases hstep with
    | @gap cursor stack tokens hi =>
      refine ⟨before ++ cursor.rest.take (Token.ignored cursor.rest), ?_,
        hplaced.gap (Token.gap_of_ignored hi), ?_⟩
      · rw [List.append_assoc, Cursor.take_append_rest_advance]
        exact htext
      · rw [Point.past_append, ← hpoint]
        rfl
    | @read cursor behind stack stack' tokens t ht _ =>
      obtain ⟨-, hspelt, hrest, hspan, hbehind⟩ := Cursor.token?_eq_some ht
      have hpast : behind.point = Point.start.past (before ++ t.text.toList) := by
        rw [hbehind, Point.past_append, ← hpoint]
      refine ⟨before ++ t.text.toList, ?_, ?_, hpast⟩
      · rw [List.append_assoc, ← hrest]
        exact htext
      · rw [List.reverse_cons]
        refine hplaced.token hspelt ?_
        rw [hspan, hpast, ← hpoint]

end Placed

namespace Parser

variable {V : Symbol → Type} {A : Algebra V} {text : List Char} {value : V (.non .program)}
  {tokens : List Token}

/-- A text is accepted at its end, with the tokens that have been read. -/
theorem steps_of_scan (h : scan A text = .ok (value, tokens)) :
    ∃ c, Relation.ReflTransGen (Step A (16 * (text.length + 2))) (.start V text) c ∧
      c.cursor.rest = [] ∧ tokens = c.tokens.reverse ∧
      feed A.node (16 * (text.length + 2)) c.stack .eof
        (A.leaf (.ending c.tokens.head?)) = .finished value := by
  obtain ⟨c, hsteps, hend⟩ := scan_ends A text
  refine ⟨c, hsteps, ?_⟩
  rw [h] at hend
  generalize hout : (Except.ok (value, tokens) : Except Rejection _) = out at hend
  cases hend with
  | done hrest =>
    unfold finish at hout
    dsimp only at hout
    split at hout
    · rename_i hf
      cases hout
      exact ⟨hrest, rfl, hf⟩
    · cases hout
  | unreadable => cases hout
  | refused => cases hout

theorem placed_of_scan (h : scan A text = .ok (value, tokens)) : Placed text tokens := by
  obtain ⟨c, hsteps, hrest, rfl, -⟩ := steps_of_scan h
  obtain ⟨before, htext, hplaced, -⟩ := Placed.of_steps hsteps
  rw [hrest, List.append_nil] at htext
  rw [htext]
  exact hplaced

end Parser

end Featherweight
