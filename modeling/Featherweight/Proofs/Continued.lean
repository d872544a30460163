import Featherweight.Proofs.Rejected
import Featherweight.Proofs.Seam

/-!
# Featherweight.Proofs.Continued

A text is read in the same way whether white space comes behind it or a semicolon on a line of its
own.

* `ReadsTo bound stack text ls stack'` : from `stack`, whatever white space comes behind it, the text
  is read as the tokens `ls` and leaves `stack'`.
* `Scans.readsTo` : if the text with a semicolon behind it is accepted, the text itself is read so.
* `scan_uncompleted` : then nothing is wrong with the text but that it ends too early, or that it has
  white space at its end that the language does not know.
-/

namespace Featherweight

/-! ## White space -/

namespace Token

/-- White space that is not blank is the start of nothing. -/
theorem readings_space {c : Char} (rest : List Char) (h : Text.isSpace c = true) :
    readings (c :: rest) = [] := by
  have hpart := isNamePart_of_isSpace h
  generalize hx : c :: rest = x
  fun_cases readings x with
  | case18 | case19 | case20 =>
    cases hx
    simp_all [isNamePart]
  | case21 => rfl
  | case22 => rfl
  | _ =>
    cases hx
    exact absurd h (by decide)

end Token

namespace Parser

variable {V : Symbol → Type} (A : Algebra V) (bound : Nat) (stack : Stack V) (tokens : List Token)
  {fuel : Nat} {cursor : Cursor}

/-- A blank is passed over, alone or with the blanks behind it. -/
theorem scanFrom_blank {c : Char} {rest : List Char} (hrest : cursor.rest = c :: rest)
    (hc : Token.isBlank c = true) (hfuel : cursor.rest.length < fuel) :
    ∃ fuel', rest.length < fuel' ∧
      scanFrom A bound fuel cursor stack tokens =
        scanFrom A bound fuel' (cursor.advance 1) stack tokens := by
  have hnext : (cursor.advance 1).rest = rest := Cursor.advance_rest (a := [c]) hrest
  have hi := Token.ignored_of_isBlank rest hc
  rw [hrest, List.length_cons] at hfuel
  rw [← hrest] at hi
  obtain ⟨k, rfl⟩ : ∃ k, fuel = k + 1 := ⟨fuel - 1, by omega⟩
  rw [scanFrom_gap hi]
  cases rest with
  | nil => exact ⟨k, by omega, rfl⟩
  | cons e rest =>
    cases he : Token.isBlank e with
    | false =>
      rw [List.takeWhile_cons_of_neg (by simp [he])]
      exact ⟨k, by omega, rfl⟩
    | true =>
      refine ⟨k + 1, by omega, ?_⟩
      rw [scanFrom_gap (by rw [hnext, Token.ignored_of_isBlank _ he]), Cursor.advance_advance,
        List.takeWhile_cons_of_pos he, List.length_cons, Nat.add_comm 1]

/-- White space is passed over up to its end, or to the first that is no blank. -/
theorem scanFrom_spaces (hs : ∀ c ∈ cursor.rest, Text.isSpace c = true)
    (hfuel : cursor.rest.length < fuel) :
    scanFrom A bound fuel cursor stack tokens = finish A bound stack tokens ∨
      (∃ c ∈ cursor.rest, Token.isBlank c = false) ∧
        ∃ r, scanFrom A bound fuel cursor stack tokens = .error r ∧ r.tokens = tokens.reverse := by
  induction hrest : cursor.rest generalizing cursor fuel with
  | nil =>
    obtain ⟨k, rfl⟩ : ∃ k, fuel = k + 1 := ⟨fuel - 1, by omega⟩
    exact .inl (scanFrom_end hrest)
  | cons c rest ih =>
    rw [hrest] at hs
    obtain ⟨hc, hs⟩ := List.forall_mem_cons.1 hs
    cases hb : Token.isBlank c with
    | true =>
      obtain ⟨fuel', hfuel', heq⟩ := scanFrom_blank A bound stack tokens hrest hb hfuel
      have hnext : (cursor.advance 1).rest = rest := Cursor.advance_rest (a := [c]) hrest
      rw [heq]
      rcases ih (by rwa [hnext]) (by rwa [hnext]) hnext with h | ⟨⟨e, he, hodd⟩, h⟩
      · exact .inl h
      · exact .inr ⟨⟨e, List.mem_cons_of_mem _ he, hodd⟩, h⟩
    | false =>
      have hslash : c ≠ '/' := by
        rintro rfl
        exact absurd hc (by decide)
      have hi : Token.ignored cursor.rest = 0 := by rw [hrest, Token.ignored_cons rest hb hslash]
      have hnone : cursor.token? stack.state.admits = none := by
        rw [Cursor.token?, hrest, Token.readings_space rest hc]
        rfl
      obtain ⟨k, rfl⟩ : ∃ k, fuel = k + 1 := ⟨fuel - 1, by omega⟩
      refine .inr ⟨⟨c, List.mem_cons_self, hb⟩,
        ⟨unreadable bound cursor c stack, cursor.point, tokens.reverse⟩, ?_, rfl⟩
      rw [hrest] at hi
      simp only [scanFrom, hrest, hi, hnone]

end Parser

/-! ## Reading in front of white space -/

/-- Whatever white space comes behind the text, it is read so. -/
def ReadsTo (bound : Nat) (stack : Stack Tree) (text : List Char) (ls : List Lexeme)
    (stack' : Stack Tree) : Prop :=
  ∀ sep : List Char, (∀ c ∈ sep, Text.isSpace c = true) →
    ∀ (fuel : Nat) (cursor : Cursor) (tokens : List Token), cursor.rest = text ++ sep →
      cursor.rest.length < fuel →
      ∃ (fuel' : Nat) (cursor' : Cursor) (later : List Token), cursor'.rest <:+ sep ∧
        cursor'.rest.length < fuel' ∧ later.map Token.lexeme = ls ∧
        Parser.scanFrom growing bound fuel cursor stack tokens =
          Parser.scanFrom growing bound fuel' cursor' stack' (later.reverse ++ tokens)

namespace ReadsTo

variable {bound : Nat} {stack stack' : Stack Tree} {text : List Char} {ls : List Lexeme}

theorem nil (bound : Nat) (stack : Stack Tree) : ReadsTo bound stack [] [] stack := by
  intro sep _ fuel cursor tokens hrest hfuel
  exact ⟨fuel, cursor, [], by simp [hrest], hfuel, rfl, rfl⟩

theorem blank {c : Char} (hc : Token.isBlank c = true) (h : ReadsTo bound stack text ls stack') :
    ReadsTo bound stack (c :: text) ls stack' := by
  intro sep hsep fuel cursor tokens hrest hfuel
  obtain ⟨k, hk, heq⟩ := Parser.scanFrom_blank growing bound stack tokens hrest hc hfuel
  have hnext : (cursor.advance 1).rest = text ++ sep := Cursor.advance_rest (a := [c]) hrest
  rw [heq]
  exact h sep hsep k _ tokens hnext (by rwa [hnext])

theorem line {comment : List Char} (hc : '\n' ∉ comment) (ht : ∀ c ∈ text.head?, c = '\n')
    (h : ReadsTo bound stack text ls stack') :
    ReadsTo bound stack ('/' :: '/' :: (comment ++ text)) ls stack' := by
  intro sep hsep fuel cursor tokens hrest hfuel
  -- At the end of the text the comment takes in the white space up to the end of the line.
  obtain ⟨skipped, left, hcut, hskipped, hleft, hhead⟩ : ∃ skipped left,
      text ++ sep = skipped ++ (text ++ left) ∧ '\n' ∉ skipped ∧ left <:+ sep ∧
        ∀ c ∈ (text ++ left).head?, c = '\n' := by
    cases text with
    | nil =>
      refine ⟨sep.takeWhile (· ≠ '\n'), sep.dropWhile (· ≠ '\n'),
        List.takeWhile_append_dropWhile.symm, fun hmem => ?_, List.dropWhile_suffix _, ?_⟩
      · simpa using List.mem_takeWhile_imp hmem
      · intro c hmem
        have hnot := List.head?_dropWhile_not (· ≠ '\n') sep
        rw [show (sep.dropWhile (· ≠ '\n')).head? = some c from hmem] at hnot
        simpa using hnot
    | cons e text => exact ⟨[], sep, rfl, by simp, List.suffix_refl _, ht⟩
  have hline : '\n' ∉ comment ++ skipped := by simp [hc, hskipped]
  have hwhole : cursor.rest = '/' :: '/' :: ((comment ++ skipped) ++ (text ++ left)) := by
    rw [hrest, List.append_assoc, ← hcut]
    simp
  have hi := Token.ignored_line hline hhead
  rw [← hwhole] at hi
  have hnext : (cursor.advance ((comment ++ skipped).length + 2)).rest = text ++ left :=
    Cursor.advance_rest (a := '/' :: '/' :: (comment ++ skipped)) hwhole
  rw [hwhole] at hfuel
  simp only [List.length_cons, List.length_append] at hfuel
  obtain ⟨k, rfl⟩ : ∃ k, fuel = k + 1 := ⟨fuel - 1, by omega⟩
  have hlen : (cursor.advance ((comment ++ skipped).length + 2)).rest.length < k := by
    rw [hnext, List.length_append]
    omega
  obtain ⟨fuel', cursor', later, hsuffix, hstep⟩ :=
    h left (fun c hmem => hsep c (hleft.subset hmem)) k _ tokens hnext hlen
  rw [Parser.scanFrom_gap hi]
  exact ⟨fuel', cursor', later, hsuffix.trans hleft, hstep⟩

theorem block {comment : List Char} (hc : ¬ ['*', '/'] <:+: comment ++ ['*'])
    (h : ReadsTo bound stack text ls stack') :
    ReadsTo bound stack ('/' :: '*' :: (comment ++ '*' :: '/' :: text)) ls stack' := by
  intro sep hsep fuel cursor tokens hrest hfuel
  have hcut : cursor.rest = '/' :: '*' :: (comment ++ '*' :: '/' :: (text ++ sep)) := by simp [hrest]
  have hi := Token.ignored_block (text ++ sep) hc
  rw [← hcut] at hi
  have hnext : (cursor.advance (comment.length + 4)).rest = text ++ sep := by
    have hsplit : cursor.rest = ('/' :: '*' :: (comment ++ ['*', '/'])) ++ (text ++ sep) := by
      simp [hrest]
    simpa using Cursor.advance_rest hsplit
  rw [hcut] at hfuel
  simp only [List.length_cons, List.length_append] at hfuel
  obtain ⟨k, rfl⟩ : ∃ k, fuel = k + 1 := ⟨fuel - 1, by omega⟩
  rw [Parser.scanFrom_gap hi]
  refine h sep hsep k _ tokens hnext ?_
  rw [hnext, List.length_append]
  omega

theorem token {stack₁ : Stack Tree} {kind : Terminal} {n : Nat} (hne : text ≠ [])
    (hi : Token.ignored text = 0) (hopen : ∀ tail, text ≠ '/' :: '*' :: tail)
    (hfind : (Token.readings text).find? (fun r => stack.state.admits r.1) = some (kind, n))
    (hf : feed growing.node bound stack kind (.leaf kind (String.ofList (text.take n))) =
      .read stack₁)
    (h : ReadsTo bound stack₁ (text.drop n) ls stack') :
    ReadsTo bound stack text (⟨kind, String.ofList (text.take n)⟩ :: ls) stack' := by
  intro sep hsep fuel cursor tokens hrest hfuel
  obtain ⟨hpos, hle, -⟩ := Token.spelt_of_mem_readings (List.mem_of_find?_eq_some hfind)
  have hapart : Apart sep := fun c hc => hsep c (List.mem_of_mem_head? hc)
  have htake : (text ++ sep).take n = text.take n := List.take_append_of_le_length hle
  have hnext : (cursor.advance n).rest = text.drop n ++ sep := by
    rw [Cursor.advance, hrest]
    exact List.drop_append_of_le_length hle
  have hi' : Token.ignored cursor.rest = 0 := by
    rw [hrest]
    exact Token.ignored_append hne hapart hi hopen
  obtain ⟨t, ht⟩ : ∃ t : Token, t = ⟨kind, String.ofList (text.take n),
      ⟨cursor.point, (cursor.advance n).point⟩⟩ := ⟨_, rfl⟩
  have htoken : cursor.token? stack.state.admits = some (t, cursor.advance n) := by
    rw [Cursor.token?, hrest, Token.readings_append hne hapart, hfind, ht, ← htake]
    rfl
  have hfeed : feed growing.node bound stack t.kind (growing.leaf t) = .read stack₁ := by
    rw [ht]
    exact hf
  obtain ⟨k, rfl⟩ : ∃ k, fuel = k + 1 := ⟨fuel - 1, by omega⟩
  have hlen : (cursor.advance n).rest.length < k := by
    rw [hrest, List.length_append] at hfuel
    rw [hnext, List.length_append, List.length_drop]
    omega
  obtain ⟨fuel', cursor', later, hsuffix, hfuel', hmap, heq⟩ :=
    h sep hsep k (cursor.advance n) (t :: tokens) hnext hlen
  refine ⟨fuel', cursor', t :: later, hsuffix, hfuel', ?_, ?_⟩
  · rw [List.map_cons, hmap, ht]
    rfl
  · rw [Parser.scanFrom_read hi' htoken hfeed, heq]
    simp

end ReadsTo

/-- What starts with no gap in front of white space starts with none. -/
theorem Token.ignored_of_append {text rest : List Char} (hne : text ≠ [])
    (hi : ignored (text ++ rest) = 0) (hopen : ∀ tail, text ≠ '/' :: '*' :: tail) :
    ignored text = 0 := by
  cases text with
  | nil => exact absurd rfl hne
  | cons c text =>
    have hb : isBlank c = false := by
      by_contra hb
      rw [List.cons_append, ignored_of_isBlank _ (by simpa using hb)] at hi
      cases hi
    by_cases hs : c = '/'
    · subst hs
      rw [ignored]
      · simp [hb]
      · rintro tail heq
        cases heq
        rw [List.cons_append, List.cons_append, ignored] at hi
        omega
      · intro tail heq
        exact hopen tail heq
    · exact ignored_cons text hb hs

theorem scans_semicolon {bound : Nat} {d : Tree (.non .program)} {stack : Stack Tree}
    {ls : List Lexeme} (h : Scans bound d stack [';'] ls) : ls = [⟨.semicolon, ";"⟩] := by
  generalize htext : [';'] = text at h
  cases h with
  | done => cases htext
  | blank hc =>
    cases htext
    exact absurd hc (by decide)
  | line => cases htext
  | block => cases htext
  | @token _ stack' _ kind n ls hi hfind hf hrest =>
    subst htext
    have hread : (kind, n) = (.semicolon, 1) := by
      simpa [Token.readings] using List.mem_of_find?_eq_some hfind
    cases hread
    cases hrest with
    | done => rfl
    | token _ hnone => cases hnone

/-- A part that does not end within the added line lies before it. -/
theorem append_eq_completed {part rest text : List Char}
    (h : part ++ rest = text ++ ['\n', ';'])
    (hp : ∀ a left, part = a ++ left → left <+: ['\n', ';'] → left = []) :
    ∃ left, text = part ++ left ∧ rest = left ++ ['\n', ';'] := by
  rcases List.append_eq_append_iff.1 h with hcut | ⟨left, hpart, heq⟩
  · exact hcut
  · obtain rfl := hp text left hpart ⟨rest, heq.symm⟩
    exact ⟨[], by simp [hpart], heq.symm⟩

theorem Scans.readsTo {bound bound' : Nat} {d : Tree (.non .program)} {stack : Stack Tree}
    {whole text : List Char} {ls : List Lexeme} (h : Scans bound d stack whole ls)
    (hwhole : whole = text ++ ['\n', ';']) (hb : stack.weight + 12 * text.length < bound)
    (hb' : stack.weight + 12 * text.length < bound') :
    ∃ before stack', ls = before ++ [⟨.semicolon, ";"⟩] ∧ Laid text before ∧
      ReadsTo bound' stack text before stack' := by
  induction h generalizing text with
  | done => simp at hwhole
  | @blank stack c rest ls hc hrest ih =>
    cases text with
    | nil =>
      cases hwhole
      exact ⟨[], stack, scans_semicolon hrest, .nil, .nil bound' stack⟩
    | cons e text =>
      cases hwhole
      rw [List.length_cons] at hb hb'
      obtain ⟨before, stack', hls, hlaid, hreads⟩ := ih rfl (by omega) (by omega)
      have hgap : Gap [c] := .blanks (by simp) (by simpa using hc)
      exact ⟨before, stack', hls, .gap hgap hlaid, hreads.blank hc⟩
  | @line stack comment rest ls hc hr _ ih =>
    have hcut : ('/' :: '/' :: comment) ++ rest = text ++ ['\n', ';'] := hwhole
    obtain ⟨left, rfl, rfl⟩ := append_eq_completed hcut (by
      intro a left hpart hleft
      cases left with
      | nil => rfl
      | cons c left =>
        obtain rfl : c = '\n' := (List.cons_prefix_cons.1 hleft).1
        have hmem : '\n' ∈ '/' :: '/' :: comment := by simp [hpart]
        simp [hc] at hmem)
    rw [List.length_append] at hb hb'
    obtain ⟨before, stack', hls, hlaid, hreads⟩ := ih rfl (by omega) (by omega)
    refine ⟨before, stack', hls, .gap (.line hc) hlaid, hreads.line hc fun c hmem => ?_⟩
    cases left with
    | nil => cases hmem
    | cons e left => exact hr c hmem
  | @block stack comment rest ls hc _ ih =>
    have hcut : ('/' :: '*' :: (comment ++ ['*', '/'])) ++ rest = text ++ ['\n', ';'] := by
      simpa using hwhole
    obtain ⟨left, rfl, rfl⟩ := append_eq_completed hcut (by
      intro a left hpart hleft
      rcases List.eq_nil_or_concat left with rfl | ⟨left, c, rfl⟩
      · rfl
      · have hlast : ('/' :: '*' :: comment ++ ['*']) ++ ['/'] = (a ++ left) ++ [c] := by
          simpa using hpart
        obtain ⟨-, hc⟩ := List.append_inj' hlast rfl
        cases hc
        have hmem : '/' ∈ ['\n', ';'] := hleft.subset (by simp)
        exact absurd hmem (by decide))
    rw [List.length_append] at hb hb'
    obtain ⟨before, stack', hls, hlaid, hreads⟩ := ih rfl (by omega) (by omega)
    refine ⟨before, stack', hls, .gap (.block hc) hlaid, ?_⟩
    simpa using hreads.block hc
  | @token stack stack₁ whole kind n ls hi hfind hf htail ih =>
    subst hwhole
    have hne : text ≠ [] := by
      rintro rfl
      cases hi
    have hapart : Apart ['\n', ';'] := by simp [Apart, Text.isSpace]
    have hopen : ∀ tail, text ≠ '/' :: '*' :: tail := by
      rintro tail rfl
      exact not_open_of_token hfind hf htail _ rfl
    rw [Token.readings_append hne hapart] at hfind
    obtain ⟨hpos, hle, hspelt⟩ := Token.spelt_of_mem_readings (List.mem_of_find?_eq_some hfind)
    have htake : (text ++ ['\n', ';']).take n = text.take n := List.take_append_of_le_length hle
    have hdrop : (text ++ ['\n', ';']).drop n = text.drop n ++ ['\n', ';'] :=
      List.drop_append_of_le_length hle
    rw [htake] at hf ⊢
    have hweight := weight_of_feed_read hf
    obtain ⟨before, stack', hls, hlaid, hreads⟩ :=
      ih hdrop (by rw [List.length_drop]; omega) (by rw [List.length_drop]; omega)
    refine ⟨_ :: before, stack', by rw [hls]; rfl, ?_, ?_⟩
    · have hl := Laid.token hspelt hlaid
      rwa [String.toList_ofList, List.take_append_drop] at hl
    · have hsame : feed growing.node bound stack kind (.leaf kind (String.ofList (text.take n))) =
          feed growing.node bound' stack kind (.leaf kind (String.ofList (text.take n))) :=
        feed_enough (by omega) (by omega)
      rw [hsame] at hf
      exact .token hne (Token.ignored_of_append hne hi hopen) hopen hfind hf hreads

/-! ## What is wrong with a text that lacks its last semicolon -/

namespace Parser

theorem finish_cases {V : Symbol → Type} (A : Algebra V) (bound : Nat) (stack : Stack V)
    (tokens : List Token) :
    (∃ value, finish A bound stack tokens = .ok (value, tokens.reverse)) ∨
      ∃ r, finish A bound stack tokens = .error r ∧ r.mistake = .endOfText ∧
        r.tokens = tokens.reverse := by
  unfold finish
  dsimp only
  split
  · exact .inl ⟨_, rfl⟩
  · exact .inr ⟨_, rfl, rfl, rfl⟩

variable {text : List Char}

theorem shifted_of_ok {d : Tree (.non .program)} {tokens : List Token}
    (h : scan growing text = .ok (d, tokens)) : shifted text = tokens := by
  have hs := scan_alike lowering_growing_alike text
  unfold shifted
  rw [h] at hs
  generalize scan lowering text = x at hs ⊢
  cases hs
  rfl

theorem shifted_of_error {r : Rejection} (h : scan growing text = .error r) :
    shifted text = r.tokens := by
  have hs := scan_alike lowering_growing_alike text
  unfold shifted
  rw [h] at hs
  generalize scan lowering text = x at hs ⊢
  cases hs
  rfl

/-- A text that ends too early is no sentence. -/
theorem not_sentence_of_endOfText {r : Rejection} (h : scan growing text = .error r)
    (hr : r.mistake = .endOfText) : ¬ Sentence (r.tokens.map Token.kind) := by
  obtain ⟨c, hsteps, htokens, hstops⟩ := stops_of_scan_error h
  intro hsentence
  rw [htokens] at hsentence
  obtain ⟨d, hfinished⟩ := feed_finished_of_sentence hsentence (enough_of_steps hsteps)
    (Holds.of_steps hsteps).after (.leaf .eof "")
  rw [hr] at hstops
  cases hstops with
  | ending _ hf => exact hf d hfinished

/-- If a text is accepted with a semicolon put behind it, its tokens are all read without it. If they
are those of a program, it is accepted as it is, unless it has white space at its end that is no
blank. -/
theorem scan_uncompleted {sep : List Char} {d : Tree (.non .program)} {ls : List Lexeme}
    (h : Scans (16 * ((text ++ ['\n', ';']).length + 2)) d [] (text ++ ['\n', ';']) ls)
    (hsep : ∀ c ∈ sep, Text.isSpace c = true) :
    ∃ before, ls = before ++ [⟨.semicolon, ";"⟩] ∧ Laid text before ∧
      (shifted (text ++ sep)).map Token.lexeme = before ∧
      (Sentence (before.map Lexeme.kind) → (∃ c ∈ sep, Token.isBlank c = false) ∨
        ∃ d' tokens, scan growing (text ++ sep) = .ok (d', tokens)) := by
  have hb : Stack.weight ([] : Stack Tree) + 12 * text.length <
      16 * ((text ++ ['\n', ';']).length + 2) := by
    rw [Stack.weight_nil, List.length_append]
    omega
  have hb' : Stack.weight ([] : Stack Tree) + 12 * text.length <
      16 * ((text ++ sep).length + 2) := by
    rw [Stack.weight_nil, List.length_append]
    omega
  obtain ⟨before, stack, hls, hlaid, hreads⟩ := h.readsTo rfl hb hb'
  refine ⟨before, hls, hlaid, ?_⟩
  obtain ⟨fuel, cursor, later, hsuffix, hfuel, hmap, hscan⟩ :=
    hreads sep hsep ((text ++ sep).length + 1) (.ofText (text ++ sep)) [] rfl (Nat.lt_succ_self _)
  rw [List.append_nil] at hscan
  have hscan : scan growing (text ++ sep) = _ := hscan
  have hspaces : ∀ c ∈ cursor.rest, Text.isSpace c = true := fun c hc => hsep c (hsuffix.subset hc)
  rcases scanFrom_spaces growing _ stack later.reverse hspaces hfuel with
    hfinish | ⟨⟨c, hc, hodd⟩, r, herror, htokens⟩
  · rw [hfinish] at hscan
    rcases finish_cases growing _ stack later.reverse with ⟨d', hd'⟩ | ⟨r, hr, hmistake, htokens⟩
    · rw [hd', List.reverse_reverse] at hscan
      rw [shifted_of_ok hscan, hmap]
      exact ⟨rfl, fun _ => .inr ⟨d', later, hscan⟩⟩
    · rw [hr] at hscan
      rw [List.reverse_reverse] at htokens
      rw [shifted_of_error hscan, htokens, hmap]
      refine ⟨rfl, fun hsentence => absurd ?_ (not_sentence_of_endOfText hscan hmistake)⟩
      rw [← hmap, List.map_map] at hsentence
      rw [htokens]
      exact hsentence
  · rw [herror] at hscan
    rw [shifted_of_error hscan, htokens, List.reverse_reverse, hmap]
    exact ⟨rfl, fun _ => .inl ⟨c, hsuffix.subset hc, hodd⟩⟩

end Parser

end Featherweight
