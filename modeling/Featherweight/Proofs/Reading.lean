import Featherweight.Proofs.Layout
import Featherweight.Proofs.Machine

/-!
# Featherweight.Proofs.Reading

Reading a text as a relation, one blank, comment or token at a time.

* `Scans bound d stack text ls` : from `stack`, the text is read as the tokens `ls` and the program
  ends as the derivation `d`.
* `scan_growing_iff` : that is what the parser does.

The relation has no cursor and no fuel for the length of the text, and it does not say how blanks are
grouped, so it can be taken apart and put together at any place of the text.
-/

namespace Featherweight

inductive Scans (bound : Nat) (d : Tree (.non .program)) :
    Stack Tree → List Char → List Lexeme → Prop where
  | done {stack : Stack Tree} :
      feed growing.node bound stack .eof (.leaf .eof "") = .finished d → Scans bound d stack [] []
  | blank {stack : Stack Tree} {c : Char} {rest : List Char} {ls : List Lexeme} :
      Token.isBlank c = true → Scans bound d stack rest ls → Scans bound d stack (c :: rest) ls
  | line {stack : Stack Tree} {comment rest : List Char} {ls : List Lexeme} :
      '\n' ∉ comment → (∀ c ∈ rest.head?, c = '\n') → Scans bound d stack rest ls →
      Scans bound d stack ('/' :: '/' :: (comment ++ rest)) ls
  | block {stack : Stack Tree} {comment rest : List Char} {ls : List Lexeme} :
      ¬ ['*', '/'] <:+: comment ++ ['*'] → Scans bound d stack rest ls →
      Scans bound d stack ('/' :: '*' :: (comment ++ '*' :: '/' :: rest)) ls
  | token {stack stack' : Stack Tree} {text : List Char} {kind : Terminal} {n : Nat}
      {ls : List Lexeme} : Token.ignored text = 0 →
      (Token.readings text).find? (fun r => stack.state.admits r.1) = some (kind, n) →
      feed growing.node bound stack kind (.leaf kind (String.ofList (text.take n))) =
        .read stack' →
      Scans bound d stack' (text.drop n) ls →
      Scans bound d stack text (⟨kind, String.ofList (text.take n)⟩ :: ls)

namespace Scans

variable {bound bound' : Nat} {d : Tree (.non .program)} {stack : Stack Tree} {text : List Char}
  {ls : List Lexeme}

theorem mono (hb : bound ≤ bound') (h : Scans bound d stack text ls) :
    Scans bound' d stack text ls := by
  induction h with
  | done hf => exact .done (by rw [feed_mono hb (by simp [hf]), hf])
  | blank hc _ ih => exact .blank hc ih
  | line hc hr _ ih => exact .line hc hr ih
  | block hc _ ih => exact .block hc ih
  | token hi hfind hf _ ih => exact .token hi hfind (by rw [feed_mono hb (by simp [hf]), hf]) ih

theorem blanks {sep : List Char} (hs : ∀ c ∈ sep, Token.isBlank c = true)
    (h : Scans bound d stack text ls) : Scans bound d stack (sep ++ text) ls := by
  induction sep with
  | nil => exact h
  | cons c sep ih =>
    exact .blank (hs c List.mem_cons_self) (ih fun e he => hs e (List.mem_cons_of_mem _ he))

/-- What is ignored may be passed over. -/
theorem gap (hi : Token.ignored text ≠ 0)
    (h : Scans bound d stack (text.drop (Token.ignored text)) ls) :
    Scans bound d stack text ls := by
  revert hi h
  fun_cases Token.ignored text with
  | case1 rest =>
    intro _ h
    rw [Nat.add_comm, List.drop_succ_cons, List.drop_succ_cons, Token.drop_length_takeWhile] at h
    rw [← List.takeWhile_append_dropWhile (p := (· ≠ '\n')) (l := rest)]
    refine .line (fun hmem => ?_) (fun c hc => ?_) h
    · simpa using List.mem_takeWhile_imp hmem
    · have hhead := List.head?_dropWhile_not (· ≠ '\n') rest
      rw [Option.mem_def.1 hc] at hhead
      simpa using hhead
  | case2 rest =>
    intro hi h
    cases hend : Token.commentEnd? 2 rest with
    | none => simp [hend] at hi
    | some m =>
      rw [hend, Option.getD_some] at h
      obtain ⟨comment, rest', rfl, rfl, hfirst⟩ := Token.commentEnd?_eq_some hend
      refine .block hfirst ?_
      have hsplit : '/' :: '*' :: (comment ++ '*' :: '/' :: rest') =
          ('/' :: '*' :: (comment ++ ['*', '/'])) ++ rest' := by simp
      rwa [hsplit, List.drop_left' (by simp; omega)] at h
  | case3 =>
    intro _ h
    rw [Token.drop_length_takeWhile] at h
    rw [← List.takeWhile_append_dropWhile (p := Token.isBlank) (l := text)]
    exact h.blanks fun c hc => List.mem_takeWhile_imp hc

end Scans

/-! ## The parser reads so -/

namespace Token

/-- A comment that is not closed early is not closed at its first character, nor early behind it. -/
theorem unclosed_cons {c : Char} {comment : List Char}
    (h : ¬ ['*', '/'] <:+: (c :: comment) ++ ['*']) :
    ¬ ['*', '/'] <:+: comment ++ ['*'] ∧
      ∀ rest tail, c = '*' → comment ++ '*' :: '/' :: rest = '/' :: tail → False := by
  refine ⟨fun hc => h (hc.trans (List.suffix_cons _ _).isInfix), ?_⟩
  rintro rest tail rfl htail
  apply h
  cases comment with
  | nil => cases htail
  | cons e comment =>
    cases htail
    exact ⟨[], comment ++ ['*'], rfl⟩

theorem commentEnd?_append (n : Nat) {comment : List Char} (rest : List Char)
    (h : ¬ ['*', '/'] <:+: comment ++ ['*']) :
    commentEnd? n (comment ++ '*' :: '/' :: rest) = some (n + comment.length + 2) := by
  induction comment generalizing n with
  | nil => rfl
  | cons c comment ih =>
    obtain ⟨hrest, hclose⟩ := unclosed_cons h
    rw [List.cons_append, commentEnd?, ih (n + 1) hrest]
    · simp
      omega
    · exact hclose rest

/-- A line comment goes up to the end of its line. -/
theorem line_split {comment rest : List Char} (hc : '\n' ∉ comment)
    (hr : ∀ c ∈ rest.head?, c = '\n') :
    (comment ++ rest).takeWhile (· ≠ '\n') = comment ∧
      (comment ++ rest).dropWhile (· ≠ '\n') = rest := by
  have hall : ∀ c ∈ comment, (decide (c ≠ '\n')) = true := by
    intro c hmem
    have hne : c ≠ '\n' := by
      rintro rfl
      exact hc hmem
    simpa using hne
  rw [List.takeWhile_append_of_pos hall, List.dropWhile_append_of_pos hall]
  cases rest with
  | nil => simp
  | cons c rest => simp [hr c rfl]

theorem ignored_line {comment rest : List Char} (hc : '\n' ∉ comment)
    (hr : ∀ c ∈ rest.head?, c = '\n') :
    ignored ('/' :: '/' :: (comment ++ rest)) = comment.length + 2 := by
  rw [ignored, (line_split hc hr).1, Nat.add_comm]

theorem ignored_block {comment : List Char} (rest : List Char)
    (h : ¬ ['*', '/'] <:+: comment ++ ['*']) :
    ignored ('/' :: '*' :: (comment ++ '*' :: '/' :: rest)) = comment.length + 4 := by
  rw [ignored, commentEnd?_append 2 rest h, Option.getD_some]
  omega

end Token

namespace Cursor

theorem advance_rest {c : Cursor} {a b : List Char} (h : c.rest = a ++ b) :
    (c.advance a.length).rest = b := by
  simp [advance, h]

theorem advance_advance (m n : Nat) (c : Cursor) :
    (c.advance m).advance n = c.advance (m + n) := by
  simp only [advance, List.drop_drop, mk.injEq, and_true]
  rw [← Point.past_append, List.take_add]

end Cursor

namespace Parser

variable {V : Symbol → Type} {A : Algebra V} {bound fuel : Nat} {cursor : Cursor}
  {tokens : List Token}

theorem scanFrom_gap {stack : Stack V} {n : Nat} (h : Token.ignored cursor.rest = n + 1) :
    scanFrom A bound (fuel + 1) cursor stack tokens =
      scanFrom A bound fuel (cursor.advance (n + 1)) stack tokens := by
  simp only [scanFrom, h]

theorem scanFrom_end {stack : Stack V} (h : cursor.rest = []) :
    scanFrom A bound (fuel + 1) cursor stack tokens = finish A bound stack tokens := by
  have hi : Token.ignored [] = 0 := rfl
  simp only [scanFrom, h, hi]

theorem scanFrom_read {stack stack' : Stack V} {t : Token} {behind : Cursor}
    (hi : Token.ignored cursor.rest = 0)
    (ht : cursor.token? stack.state.admits = some (t, behind))
    (hf : feed A.node bound stack t.kind (A.leaf t) = .read stack') :
    scanFrom A bound (fuel + 1) cursor stack tokens =
      scanFrom A bound fuel behind stack' (t :: tokens) := by
  cases hc : cursor.rest with
  | nil =>
    rw [Cursor.token?, hc] at ht
    cases ht
  | cons c r =>
    rw [hc] at hi
    simp only [scanFrom, hc, hi, ht, hf]

variable {d : Tree (.non .program)} {stack : Stack Tree}

theorem scans_of_scanFrom {out : List Token} (hfuel : cursor.rest.length < fuel)
    (h : scanFrom growing bound fuel cursor stack tokens = .ok (d, out)) :
    ∃ later, out = tokens.reverse ++ later ∧
      Scans bound d stack cursor.rest (later.map Token.lexeme) := by
  induction fuel generalizing cursor stack tokens with
  | zero => exact absurd hfuel (by omega)
  | succ fuel ih =>
    unfold scanFrom at h
    split at h
    · rename_i n hn
      have hne : Token.ignored cursor.rest ≠ 0 := by omega
      have hlen : (cursor.advance (n + 1)).rest.length < fuel := by
        have hrest : cursor.rest ≠ [] := by
          intro hnil
          rw [hnil] at hn
          cases hn
        have := List.length_pos_iff.2 hrest
        simp only [Cursor.advance, List.length_drop]
        omega
      obtain ⟨later, hout, hscans⟩ := ih hlen h
      refine ⟨later, hout, .gap hne ?_⟩
      rw [hn]
      exact hscans
    · rename_i hrest
      unfold finish at h
      dsimp only at h
      split at h
      · rename_i hfeed
        cases h
        refine ⟨[], by simp, ?_⟩
        rw [hrest]
        exact .done hfeed
      · cases h
    · split at h
      · cases h
      · rename_i hi _ _ t behind ht
        obtain ⟨⟨kind, n⟩, hfind, hr⟩ := Option.map_eq_some_iff.1 ht
        cases hr
        obtain ⟨hpos, hle, -⟩ := Token.spelt_of_mem_readings (List.mem_of_find?_eq_some hfind)
        split at h
        · rename_i stack' hfeed
          have hlen : (cursor.advance n).rest.length < fuel := by
            simp only [Cursor.advance, List.length_drop]
            omega
          obtain ⟨later, hout, hscans⟩ := ih hlen h
          refine ⟨_ :: later, by simpa using hout, ?_⟩
          exact .token hi hfind hfeed hscans
        · cases h
        · cases h

theorem scanFrom_of_scans {text : List Char} {ls : List Lexeme}
    (h : Scans bound d stack text ls) :
    ∀ (fuel : Nat) (cursor : Cursor) (tokens : List Token), cursor.rest = text →
      text.length < fuel →
      ∃ later, scanFrom growing bound fuel cursor stack tokens =
        .ok (d, tokens.reverse ++ later) ∧ later.map Token.lexeme = ls := by
  induction h with
  | @done stack hf =>
    intro fuel cursor tokens hrest hfuel
    obtain ⟨k, rfl⟩ : ∃ k, fuel = k + 1 := ⟨fuel - 1, by omega⟩
    have hfeed : feed growing.node bound stack .eof
        (growing.leaf (Token.ending tokens.head?)) = .finished d := hf
    refine ⟨[], ?_, rfl⟩
    rw [scanFrom_end hrest]
    simp only [finish, hfeed, List.append_nil]
  | @blank stack c rest ls hc _ ih =>
    intro fuel cursor tokens hrest hfuel
    rw [List.length_cons] at hfuel
    obtain ⟨k, rfl⟩ : ∃ k, fuel = k + 1 := ⟨fuel - 1, by omega⟩
    have hnext : (cursor.advance 1).rest = rest := Cursor.advance_rest (a := [c]) hrest
    have hi := Token.ignored_of_isBlank rest hc
    rw [← hrest] at hi
    rw [scanFrom_gap hi]
    cases rest with
    | nil => exact ih _ _ _ hnext (by omega)
    | cons e rest =>
      cases he : Token.isBlank e with
      | false =>
        rw [List.takeWhile_cons_of_neg (by simp [he])]
        exact ih _ _ _ hnext (by omega)
      | true =>
        -- The blank and those behind it are passed over in one step.
        have hstep := ih (k + 1) _ tokens hnext (by omega)
        rw [scanFrom_gap (by rw [hnext, Token.ignored_of_isBlank _ he]),
          Cursor.advance_advance] at hstep
        rw [List.takeWhile_cons_of_pos he, List.length_cons, Nat.add_comm _ 1]
        exact hstep
  | @line stack comment rest ls hc hr _ ih =>
    intro fuel cursor tokens hrest hfuel
    obtain ⟨k, rfl⟩ : ∃ k, fuel = k + 1 := ⟨fuel - 1, by omega⟩
    have hi := Token.ignored_line hc hr
    rw [← hrest] at hi
    rw [scanFrom_gap hi]
    have hnext : (cursor.advance (comment.length + 2)).rest = rest :=
      Cursor.advance_rest (a := '/' :: '/' :: comment) hrest
    simp only [List.length_cons, List.length_append] at hfuel
    exact ih _ _ _ hnext (by omega)
  | @block stack comment rest ls hc _ ih =>
    intro fuel cursor tokens hrest hfuel
    obtain ⟨k, rfl⟩ : ∃ k, fuel = k + 1 := ⟨fuel - 1, by omega⟩
    have hi := Token.ignored_block rest hc
    rw [← hrest] at hi
    rw [scanFrom_gap hi]
    have hnext : (cursor.advance (comment.length + 4)).rest = rest := by
      have hsplit : cursor.rest = ('/' :: '*' :: (comment ++ ['*', '/'])) ++ rest := by simp [hrest]
      simpa using Cursor.advance_rest hsplit
    simp only [List.length_cons, List.length_append] at hfuel
    exact ih _ _ _ hnext (by omega)
  | @token stack stack' text kind n ls hi hfind hf _ ih =>
    intro fuel cursor tokens hrest hfuel
    obtain ⟨hpos, hle, -⟩ := Token.spelt_of_mem_readings (List.mem_of_find?_eq_some hfind)
    obtain ⟨k, rfl⟩ : ∃ k, fuel = k + 1 := ⟨fuel - 1, by omega⟩
    subst hrest
    obtain ⟨t, ht⟩ : ∃ t : Token, t = ⟨kind, String.ofList (cursor.rest.take n),
        ⟨cursor.point, (cursor.advance n).point⟩⟩ := ⟨_, rfl⟩
    have htoken : cursor.token? stack.state.admits = some (t, cursor.advance n) := by
      rw [Cursor.token?, hfind, ht]
      rfl
    have hfeed : feed growing.node bound stack t.kind (growing.leaf t) = .read stack' := by
      rw [ht]
      exact hf
    obtain ⟨later, hok, hmap⟩ := ih k (cursor.advance n) (t :: tokens) rfl (by
      rw [List.length_drop]
      omega)
    refine ⟨t :: later, ?_, ?_⟩
    · rw [scanFrom_read hi htoken hfeed, hok]
      simp
    · rw [List.map_cons, hmap, ht]
      rfl

/-- The parser reads a text as the relation says. -/
theorem scan_growing_iff {text : List Char} {ls : List Lexeme} :
    (∃ tokens, scan growing text = .ok (d, tokens) ∧ tokens.map Token.lexeme = ls) ↔
      Scans (16 * (text.length + 2)) d [] text ls := by
  constructor
  · rintro ⟨tokens, h, rfl⟩
    obtain ⟨later, hout, hscans⟩ := scans_of_scanFrom (Nat.lt_succ_self _) h
    have hlater : tokens = later := by simpa using hout
    rw [hlater]
    exact hscans
  · intro h
    exact scanFrom_of_scans h (text.length + 1) (.ofText text) [] rfl (Nat.lt_succ_self _)

end Parser

end Featherweight
