import Featherweight.Parser
import Featherweight.Proofs.Derivation

/-!
# Featherweight.Proofs.Parametric

The parser treats the values it builds alike, whatever they are: two algebras whose leaves and nodes
are related read every text with the same tokens, the same refusals and related values.

* `Alike A B R` : the algebras `A` and `B` respect the relation `R`.
* `scan_alike` : so does the reading of a text.
* `Parser.Found` : what can be found wrong in a derivation.
* `exists_found_of_scan` : a text that has a derivation is parsed unless something is found wrong in
  it, and then the tree is what the derivation means.
-/

namespace Featherweight

variable {V W : Symbol → Type} {R : (X : Symbol) → V X → W X → Prop}

def ValuesAlike (R : (X : Symbol) → V X → W X → Prop) :
    (word : List Symbol) → Values V word → Values W word → Prop
  | [], _, _ => True
  | X :: word, (v, vs), (u, us) => R X v u ∧ ValuesAlike R word vs us

inductive StackAlike (R : (X : Symbol) → V X → W X → Prop) : Stack V → Stack W → Prop where
  | nil : StackAlike R [] []
  | cons {s : State} {X : Symbol} {v : V X} {u : W X} {a : Stack V} {b : Stack W} :
      R X v u → StackAlike R a b → StackAlike R (⟨s, X, v⟩ :: a) (⟨s, X, u⟩ :: b)

inductive ReplyAlike (R : (X : Symbol) → V X → W X → Prop) : Reply V → Reply W → Prop where
  | read {a : Stack V} {b : Stack W} : StackAlike R a b → ReplyAlike R (.read a) (.read b)
  | finished {v : V (.non .program)} {u : W (.non .program)} :
      R _ v u → ReplyAlike R (.finished v) (.finished u)
  | refused {a : Stack V} {b : Stack W} : StackAlike R a b → ReplyAlike R (.refused a) (.refused b)

theorem ReplyAlike.cast {A : Nonterminal} (h : A = .program) {v : V (.non A)} {u : W (.non A)}
    (hr : R _ v u) : ReplyAlike R (.finished (h ▸ v)) (.finished (h ▸ u)) := by
  subst h
  exact .finished hr

structure Alike (A : Algebra V) (B : Algebra W) (R : (X : Symbol) → V X → W X → Prop) : Prop where
  leaf : ∀ t, R _ (A.leaf t) (B.leaf t)
  node : ∀ p vs us, ValuesAlike R p.rhs vs us → R _ (A.node p vs) (B.node p us)

namespace StackAlike

variable {a : Stack V} {b : Stack W}

theorem state_eq (h : StackAlike R a b) : a.state = b.state := by
  cases h <;> rfl

theorem erase_eq (h : StackAlike R a b) : a.erase = b.erase := by
  induction h with
  | nil => rfl
  | cons _ _ ih =>
    simp only [Stack.erase, List.map_cons] at ih ⊢
    rw [ih]

theorem expected_eq (h : StackAlike R a b) (fuel : Nat) : a.expected fuel = b.expected fuel := by
  unfold Stack.expected
  congr 1
  funext t
  rw [Stack.takes, Stack.takes, h.erase_eq]

/-- Both stacks give up a word or neither does. -/
theorem pop? (h : StackAlike R a b) (word : List Symbol) :
    (a.pop? word = none ∧ b.pop? word = none) ∨
    ∃ vs a' us b', a.pop? word = some (vs, a') ∧ b.pop? word = some (us, b') ∧
      ValuesAlike R word vs us ∧ StackAlike R a' b' := by
  induction word with
  | nil => exact .inr ⟨(), a, (), b, rfl, rfl, trivial, h⟩
  | cons X word ih =>
    rcases ih with ⟨ha, hb⟩ | ⟨vs, a', us, b', ha, hb, hv, hs⟩
    · exact .inl ⟨by simp [Stack.pop?, ha], by simp [Stack.pop?, hb]⟩
    · cases hs with
      | nil => exact .inl ⟨by simp [Stack.pop?, ha], by simp [Stack.pop?, hb]⟩
      | @cons s Y v u a'' b'' hr hs =>
        by_cases hY : Y = X
        · subst hY
          refine .inr ⟨(v, vs), a'', (u, us), b'', ?_, ?_, ⟨hr, hv⟩, hs⟩
          · simp [Stack.pop?, ha]
          · simp [Stack.pop?, hb]
        · exact .inl ⟨by simp [Stack.pop?, ha, hY], by simp [Stack.pop?, hb, hY]⟩

end StackAlike

theorem feed_alike {build : Build V} {build' : Build W}
    (hnode : ∀ p vs us, ValuesAlike R p.rhs vs us → R _ (build p vs) (build' p us))
    {fuel : Nat} {a : Stack V} {b : Stack W} {t : Terminal} {v : V (.term t)} {u : W (.term t)}
    (hs : StackAlike R a b) (hv : R _ v u) :
    ReplyAlike R (feed build fuel a t v) (feed build' fuel b t u) := by
  induction fuel generalizing a b with
  | zero => exact .refused hs
  | succ fuel ih =>
    rw [feed, feed, hs.state_eq]
    cases b.state.action? t with
    | none => exact .refused hs
    | some action =>
      cases action with
      | shift s => exact .read (.cons hv hs)
      | reduce p =>
        rcases hs.pop? p.rhs with ⟨ha, hb⟩ | ⟨vs, a', us, b', ha, hb, hvs, hs'⟩
        · simp only [ha, hb]
          exact .refused hs
        · simp only [ha, hb]
          have hp := hnode p vs us hvs
          by_cases hl : p.lhs = .program
          · rw [dif_pos hl, dif_pos hl]
            exact .cast hl hp
          · rw [dif_neg hl, dif_neg hl, hs'.state_eq]
            cases b'.state.move? (.non p.lhs) with
            | none => exact .refused hs
            | some s => exact ih (.cons hp hs')

/-- What two readings of one text have in common. -/
inductive ScanAlike (R : (X : Symbol) → V X → W X → Prop) :
    Except Rejection (V (.non .program) × List Token) →
    Except Rejection (W (.non .program) × List Token) → Prop where
  | ok {v : V (.non .program)} {u : W (.non .program)} {tokens : List Token} :
      R _ v u → ScanAlike R (.ok (v, tokens)) (.ok (u, tokens))
  | error {r : Rejection} : ScanAlike R (.error r) (.error r)

theorem ScanAlike.of_ok {v : V (.non .program)} {tokens : List Token}
    {y : Except Rejection (W (.non .program) × List Token)}
    (h : ScanAlike R (.ok (v, tokens)) y) : ∃ u, y = .ok (u, tokens) ∧ R _ v u := by
  cases h with
  | ok hr => exact ⟨_, rfl, hr⟩

namespace Parser

variable {A : Algebra V} {B : Algebra W}

theorem finish_alike (h : Alike A B R) (bound : Nat) {a : Stack V} {b : Stack W}
    (hs : StackAlike R a b) (tokens : List Token) :
    ScanAlike R (finish A bound a tokens) (finish B bound b tokens) := by
  have hf : ReplyAlike R
      (feed A.node bound a .eof (A.leaf (Token.ending tokens.head?)))
      (feed B.node bound b .eof (B.leaf (Token.ending tokens.head?))) :=
    feed_alike h.node hs (h.leaf (Token.ending tokens.head?))
  unfold finish
  dsimp only
  generalize feed A.node bound a .eof (A.leaf (Token.ending tokens.head?)) = x at hf ⊢
  generalize feed B.node bound b .eof (B.leaf (Token.ending tokens.head?)) = y at hf ⊢
  cases hf with
  | read _ => exact .error
  | finished hr => exact .ok hr
  | refused _ => exact .error

theorem scanFrom_alike (h : Alike A B R) (bound : Nat) {fuel : Nat} {cursor : Cursor}
    {a : Stack V} {b : Stack W} (hs : StackAlike R a b) (tokens : List Token) :
    ScanAlike R (scanFrom A bound fuel cursor a tokens) (scanFrom B bound fuel cursor b tokens) := by
  induction fuel generalizing cursor a b tokens with
  | zero => exact finish_alike h bound hs tokens
  | succ fuel ih =>
    unfold scanFrom
    split
    · exact ih hs tokens
    · exact finish_alike h bound hs tokens
    · rw [hs.state_eq]
      cases cursor.token? b.state.admits with
      | none =>
        simp only [unreadable, hs.expected_eq]
        exact .error
      | some reading =>
        obtain ⟨t, behind⟩ := reading
        have hf : ReplyAlike R (feed A.node bound a t.kind (A.leaf t))
            (feed B.node bound b t.kind (B.leaf t)) := feed_alike h.node hs (h.leaf t)
        dsimp only
        generalize feed A.node bound a t.kind (A.leaf t) = x at hf ⊢
        generalize feed B.node bound b t.kind (B.leaf t) = y at hf ⊢
        cases hf with
        | read hs' => exact ih hs' (t :: tokens)
        | finished _ =>
          simp only [hs.expected_eq]
          exact .error
        | refused hs' =>
          simp only [hs'.expected_eq]
          exact .error

theorem scan_alike (h : Alike A B R) (text : List Char) :
    ScanAlike R (scan A text) (scan B text) :=
  scanFrom_alike h _ .nil []

end Parser

/-! ## Lowering against growing -/

def plainAll : (word : List Symbol) → Values Part word → Values Sense word
  | [], _ => ()
  | X :: word, (part, parts) => (Meaning.plain X part.meaning, plainAll word parts)

theorem bare_negate (minus : Token) (e : Expr) :
    (Parser.negate minus e).bare = negative e.bare := by
  cases e with
  | literal v pos => cases v <;> simp [Parser.negate, negative, Expr.bare, Value.bare]
  | _ => simp [Parser.negate, negative, Expr.bare, Value.bare]

/-- Lowering a production does to the text what the meaning of the production says. -/
theorem plain_lower (p : Production) (pos : Option Pos) (parts : Values Part p.rhs) :
    Meaning.plain (.non p.lhs) (Parser.lower p pos parts) = sense p (plainAll p.rhs parts) := by
  cases p with
  | negation => exact bare_negate _ _
  | programEmpty => exact Expr.bare_sequence [] none
  | programStmts => exact Expr.bare_sequence _ _
  | bodyStmts => exact Expr.bare_sequence _ _
  | bodyEmpty => exact Expr.bare_sequence [] pos
  | stmtsMore => exact (congrArg _ List.reverse_cons).trans List.map_append
  | moreArgsMore => exact (congrArg _ List.reverse_cons).trans List.map_append
  | moreParamsMore => exact List.reverse_cons
  | callArgs => exact congrArg (Expr.call _ · none) (Expr.bareAll_eq_map _)
  | _ => rfl

/-! ## What is found wrong -/

/-- An integer that can be read. -/
def Lexeme.Readable (l : Lexeme) : Prop :=
  l.kind = .int → l.text.length ≤ Parser.maxDigits ∧ Token.digitsValue l.text ≤ Parser.maxLiteral

namespace Parser

theorem literalError?_eq_none {t : Token} : literalError? t = none ↔ t.lexeme.Readable := by
  unfold literalError? Lexeme.Readable
  by_cases hk : t.kind = .int
  · simp only [Token.lexeme, hk, if_true, forall_const]
    split
    · simp
      omega
    · split
      · simp
        omega
      · simp
        omega
  · simp [Token.lexeme, hk]

theorem literalErrors_eq_none {tokens : List Token} :
    tokens.findSome? literalError? = none ↔ ∀ l ∈ tokens.map Token.lexeme, l.Readable := by
  rw [List.findSome?_eq_none_iff, List.forall_mem_map]
  exact forall₂_congr fun _ _ => literalError?_eq_none

/-- What can be found wrong in a derivation with a height and tokens, below a number of levels. -/
inductive Found (levels height : Nat) (ls : List Lexeme) : Option ParseError → Prop where
  | nothing : levels + height ≤ maxLevels → (∀ l ∈ ls, l.Readable) → Found levels height ls none
  | tooDeep : maxLevels < levels + height → Found levels height ls (some .tooDeep)
  | literal {t : Token} {e : ParseError} : t.lexeme ∈ ls → literalError? t = some e →
      Found levels height ls (some e)

namespace Found

variable {levels height height' : Nat} {ls ms : List Lexeme} {flaw flaw' : Option ParseError}

theorem append (h : Found levels height ls flaw) (h' : Found levels height' ms flaw') :
    Found levels (max height height') (ls ++ ms) (flaw <|> flaw') := by
  cases h with
  | tooDeep hdeep => exact .tooDeep (by omega)
  | literal ht he => exact .literal (List.mem_append_left _ ht) he
  | nothing hfits hls =>
    cases h' with
    | tooDeep hdeep => exact .tooDeep (by omega)
    | literal ht he => exact .literal (List.mem_append_right _ ht) he
    | nothing hfits' hms => exact .nothing (by omega) (List.forall_mem_append.2 ⟨hls, hms⟩)

theorem below (h : Found (levels + 1) height ls flaw) : Found levels (height + 1) ls flaw := by
  cases h with
  | tooDeep hdeep => exact .tooDeep (by omega)
  | literal ht he => exact .literal ht he
  | nothing hfits hls => exact .nothing (by omega) hls

/-- Where the integers can be read, only the height matters. -/
theorem eq_of_readable (h : Found levels height ls flaw) (hls : ∀ l ∈ ls, l.Readable) :
    flaw = if maxLevels < levels + height then some .tooDeep else none := by
  cases h with
  | nothing hfits _ => rw [if_neg (Nat.not_lt.2 hfits)]
  | tooDeep hdeep => rw [if_pos hdeep]
  | literal ht he =>
    rw [literalError?_eq_none.2 (hls _ ht)] at he
    cases he

end Found

end Parser

/-- A part stands for a derivation: it means the same, and what is wrong in it is found. -/
def Part.Stands (X : Symbol) (part : Part X) (tree : Tree X) : Prop :=
  Meaning.plain X part.meaning = tree.sense ∧
    ∀ levels ≤ Parser.maxLevels, Parser.Found levels tree.height tree.yield (part.flaw? levels)

theorem ValuesAlike.stands {word : List Symbol} {parts : Values Part word}
    {trees : Values Tree word} (h : ValuesAlike Part.Stands word parts trees) :
    plainAll word parts = (Forest.ofValues word trees).senses ∧
      ∀ levels ≤ Parser.maxLevels, Parser.Found levels (Forest.ofValues word trees).height
        (Forest.ofValues word trees).yield (Parser.flawIn? levels word parts) := by
  induction word with
  | nil => exact ⟨rfl, fun levels hlevels => .nothing hlevels (List.forall_mem_nil _)⟩
  | cons X word ih =>
    obtain ⟨hsense, hfound⟩ := ih h.2
    obtain ⟨hp, hf⟩ := h.1
    constructor
    · show (_, _) = (_, _)
      rw [hp, hsense]
    · exact fun levels hlevels => (hf levels hlevels).append (hfound levels hlevels)

theorem Parser.found_leaf (t : Token) {levels : Nat} (hlevels : levels ≤ maxLevels) :
    Found levels 0 [t.lexeme] (literalError? t) := by
  cases he : literalError? t with
  | none => exact .nothing hlevels (List.forall_mem_singleton.2 (literalError?_eq_none.1 he))
  | some e => exact .literal List.mem_cons_self he

theorem lowering_growing_alike : Alike Parser.lowering growing Part.Stands where
  leaf t := ⟨rfl, fun _ hlevels => Parser.found_leaf t hlevels⟩
  node p parts trees h := by
    obtain ⟨hsense, hfound⟩ := h.stands
    constructor
    · show Meaning.plain _ (Parser.lower p _ parts) = sense p _
      rw [plain_lower, hsense]
    · intro levels hlevels
      show Parser.Found levels ((Forest.ofValues p.rhs trees).height + _)
        (Forest.ofValues p.rhs trees).yield (Parser.flawOf? p parts levels)
      unfold Parser.flawOf?
      by_cases hp : p.isLevel = true
      · rw [if_pos hp, if_pos hp]
        by_cases hlt : levels < Parser.maxLevels
        · rw [if_pos hlt]
          exact (hfound (levels + 1) hlt).below
        · rw [if_neg hlt]
          exact .tooDeep (by omega)
      · rw [if_neg hp, if_neg hp]
        exact hfound levels hlevels

namespace Parser

/-- The tree of a text is what has been lowered from it. -/
theorem scan_of_parseTokens {text : List Char} {e : Expr} {tokens : List Token}
    (h : parseTokens text = .ok (e, tokens)) :
    ∃ part, scan lowering text = .ok (part, tokens) ∧ part.meaning = e := by
  unfold parseTokens at h
  split at h
  · cases h
  · rename_i part tokens' hscan
    split at h
    · cases h
    · cases h
      exact ⟨part, hscan, rfl⟩

/-- A text that has a derivation is parsed unless something wrong is found in it. -/
theorem exists_found_of_scan {text : List Char} {d : Tree (.non .program)} {tokens : List Token}
    (h : scan growing text = .ok (d, tokens)) :
    ∃ e flaw, e.bare = d.sense ∧ Found 0 d.height d.yield flaw ∧
      parseTokens text = flaw.elim (.ok (e, tokens)) .error := by
  have hs := scan_alike lowering_growing_alike text
  rw [h] at hs
  unfold parseTokens
  generalize scan lowering text = x at hs ⊢
  cases hs with
  | @ok part d tokens hstand =>
    refine ⟨part.meaning, part.flaw? 0, hstand.1, hstand.2 0 (Nat.zero_le _), ?_⟩
    dsimp only
    cases part.flaw? 0 <;> rfl

end Parser

theorem parse_eq_ok {text : String} {e : Expr} :
    parse text = .ok e ↔ ∃ tokens, Parser.parseTokens text.toList = .ok (e, tokens) := by
  unfold parse
  cases Parser.parseTokens text.toList with
  | error err => simp [Except.map]
  | ok result =>
    obtain ⟨e', tokens⟩ := result
    simp [Except.map]

theorem parse_eq_error {text : String} {err : ParseError} :
    parse text = .error err ↔ Parser.parseTokens text.toList = .error err := by
  unfold parse
  cases Parser.parseTokens text.toList <;> simp [Except.map]

end Featherweight
