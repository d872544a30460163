import Featherweight.Proofs.Pieces
import Featherweight.Proofs.Stretches

/-!
# Featherweight.Proofs.Colouring

Colouring, which goes line by line and knows no state, finds the tokens of the parser.

* `codePieces` are the pieces of the lines of a text that are neither spaces nor comments.
* `codePieces_append` : what stands in front of a text on its first line adds pieces in front.
* `piece_of_readings` : the piece at a place is as long as the first way to read a token there.
* `colouring_finds_tokens` : in a program whose block comments each stand on one line, these pieces are
  the tokens, and no piece is an error.
-/

namespace Featherweight.Highlight

def Group.isCode : Group → Bool
  | .space | .comment => false
  | _ => true

/-- The pieces of the lines of a text, one line after the other, that are neither spaces nor
comments. -/
def codePieces (text : List Char) : List (Group × List Char) :=
  ((lines text).flatMap pieces).filter (·.1.isCode)

/-! ## Lines -/

/-- The rest of the line that a text starts in. -/
def firstLine (text : List Char) : List Char := text.takeWhile (· ≠ '\n')

theorem lines_newline (rest : List Char) : lines ('\n' :: rest) = [] :: lines rest := by
  simp [lines, List.splitOn_eq_splitOnP, List.splitOnP_cons_eq_if_modifyHead]

theorem lines_cons {c : Char} (hc : c ≠ '\n') (rest : List Char) :
    lines (c :: rest) = (lines rest).modifyHead (c :: ·) := by
  simp [lines, List.splitOn_eq_splitOnP, List.splitOnP_cons_eq_if_modifyHead, hc]

theorem exists_lines (text : List Char) : ∃ more, lines text = firstLine text :: more := by
  induction text with
  | nil => exact ⟨[], rfl⟩
  | cons c rest ih =>
    by_cases hc : c = '\n'
    · subst hc
      exact ⟨lines rest, lines_newline rest⟩
    · obtain ⟨more, hmore⟩ := ih
      exact ⟨more, by simp [lines_cons hc, hmore, firstLine, hc]⟩

theorem lines_append {a rest line : List Char} {more : List (List Char)} (ha : '\n' ∉ a)
    (h : lines rest = line :: more) : lines (a ++ rest) = (a ++ line) :: more := by
  induction a with
  | nil => exact h
  | cons c a ih =>
    simp only [List.mem_cons, not_or] at ha
    rw [List.cons_append, lines_cons (Ne.symm ha.1), ih ha.2]
    rfl

theorem codePieces_newline (rest : List Char) : codePieces ('\n' :: rest) = codePieces rest := by
  simp [codePieces, lines_newline, pieces_nil]

/-- What stands in front of a text on its first line adds its own pieces to those of the text. -/
theorem codePieces_append {a rest : List Char} {p : List (Group × List Char)} (ha : '\n' ∉ a)
    (h : (pieces (a ++ firstLine rest)).filter (·.1.isCode) =
      p ++ (pieces (firstLine rest)).filter (·.1.isCode)) :
    codePieces (a ++ rest) = p ++ codePieces rest := by
  obtain ⟨more, hmore⟩ := exists_lines rest
  simp only [codePieces, hmore, lines_append ha hmore, List.flatMap_cons, List.filter_append]
  rw [h, List.append_assoc]

/-- A first piece that takes what stands in front of a line leaves the pieces of the line. -/
theorem pieces_append {c : Char} {a line : List Char} {group : Group}
    (h : piece c (a ++ line) = (group, a.length + 1)) :
    pieces (c :: a ++ line) = (group, c :: a) :: pieces line := by
  have hsplit : c :: (a ++ line) = (c :: a) ++ line := rfl
  rw [List.cons_append, pieces_cons, h, hsplit]
  simp only [← List.length_cons (a := c), List.take_left, List.drop_left]

/-! ## Spaces and comments -/

theorem commentLength?_of_ne {c : Char} (hc : c ≠ '/') (rest : List Char) :
    commentLength? (c :: rest) = none := by
  rw [commentLength?]
  · rintro tail heq
    exact absurd (List.cons.inj heq).1 hc
  · rintro tail heq
    exact absurd (List.cons.inj heq).1 hc

theorem piece_comment {c : Char} {rest : List Char} {n : Nat}
    (h : commentLength? (c :: rest) = some n) : piece c rest = (.comment, n) := by
  simp [piece, h]

theorem not_contains_of_space {c : Char} {signs : List Char}
    (hsigns : signs.all (!Text.isSpace ·) = true) (hc : Text.isSpace c = true) :
    signs.contains c = false := by
  by_contra hmem
  have hnot := List.all_eq_true.1 hsigns c (by simpa using hmem)
  rw [hc] at hnot
  cases hnot

theorem operatorLength?_of_space {c : Char} (hc : Text.isSpace c = true) (rest : List Char) :
    operatorLength? (c :: rest) = none := by
  have hnot : ['-', '+', '*', '/', '%', '<', '>', '='].contains c = false :=
    not_contains_of_space rfl hc
  generalize hx : c :: rest = x
  fun_cases operatorLength? x with
  | case4 _ _ _ _ _ hmem =>
    cases hx
    rw [hnot] at hmem
    cases hmem
  | case5 | case6 => rfl
  | _ =>
    cases hx
    cases hc

theorem piece_space {c : Char} (rest : List Char) (hc : Text.isSpace c = true) :
    piece c rest = (.space, ((c :: rest).takeWhile Text.isSpace).length) := by
  have hslash : c ≠ '/' := by
    rintro rfl
    cases hc
  have hdigit := Token.isDigit_of_isSpace hc
  have hname : Token.isNameStart c = false := by
    have hpart := Token.isNamePart_of_isSpace hc
    simp only [Token.isNamePart, Bool.or_eq_false_iff] at hpart
    exact hpart.1
  have hpunctuation : ['(', ')', '\x7b', '\x7d', ';', ','].contains c = false :=
    not_contains_of_space rfl hc
  simp only [piece, commentLength?_of_ne hslash, hdigit, hname, operatorLength?_of_space hc,
    hpunctuation, hc, Bool.false_eq_true, if_false, if_true]

theorem pieces_space {c : Char} (hc : Text.isSpace c = true) (rest : List Char) :
    pieces (c :: rest) = (.space, (c :: rest).takeWhile Text.isSpace) ::
      pieces (rest.dropWhile Text.isSpace) := by
  rw [pieces_cons, piece_space rest hc, Token.take_length_takeWhile, Token.drop_length_takeWhile,
    List.dropWhile_cons_of_pos hc]

/-- A space may be taken from a line: it makes a piece of spaces longer, or is one alone. -/
theorem codePieces_blank {c : Char} (hc : Token.isBlank c = true) (rest : List Char) :
    codePieces (c :: rest) = codePieces rest := by
  have hspace := Token.isSpace_of_isBlank hc
  by_cases hnewline : c = '\n'
  · subst hnewline
    exact codePieces_newline rest
  · refine codePieces_append (a := [c]) (p := []) (by simpa using Ne.symm hnewline) ?_
    generalize firstLine rest = line
    rw [List.singleton_append, pieces_space hspace, List.filter_cons_of_neg (by simp [Group.isCode]),
      List.nil_append]
    cases line with
    | nil => rfl
    | cons e line =>
      by_cases he : Text.isSpace e = true
      · rw [pieces_space he, List.filter_cons_of_neg (by simp [Group.isCode]), List.dropWhile_cons_of_pos he]
      · rw [List.dropWhile_cons_of_neg he]

theorem codePieces_line {comment rest : List Char} (hc : '\n' ∉ comment)
    (hr : ∀ c ∈ rest.head?, c = '\n') :
    codePieces ('/' :: '/' :: (comment ++ rest)) = codePieces rest := by
  have hend : firstLine rest = [] := by
    cases rest with
    | nil => rfl
    | cons c rest => simp [firstLine, hr c rfl]
  have hlength : commentLength? ('/' :: '/' :: comment) = some (comment.length + 2) := by
    rw [commentLength?, ← List.append_nil comment, (Token.line_split hc (by simp)).1, Nat.add_comm]
    simp
  refine codePieces_append (a := '/' :: '/' :: comment) (p := []) (by simpa using hc) ?_
  rw [hend]
  have hpiece : piece '/' ('/' :: comment ++ []) = (.comment, ('/' :: comment).length + 1) := by
    rw [List.append_nil, piece_comment hlength]
    rfl
  rw [pieces_append hpiece, List.filter_cons_of_neg (by simp [Group.isCode])]
  rfl

theorem blockLength?_append (n : Nat) {comment : List Char} (line : List Char)
    (hline : '\n' ∉ comment) (h : ¬ ['*', '/'] <:+: comment ++ ['*']) :
    blockLength? n (comment ++ '*' :: '/' :: line) = some (n + comment.length + 2) := by
  induction comment generalizing n with
  | nil => rfl
  | cons c comment ih =>
    simp only [List.mem_cons, not_or] at hline
    obtain ⟨hrest, hclose⟩ := Token.unclosed_cons h
    rw [List.cons_append, blockLength?.eq_5 _ _ _ (hclose line), ih (n + 1) hline.2 hrest]
    · simp
      omega
    · rintro rfl
      exact absurd rfl hline.1
    · rintro rfl
      exact absurd rfl hline.1

theorem codePieces_block {comment : List Char} (rest : List Char) (hline : '\n' ∉ comment)
    (h : ¬ ['*', '/'] <:+: comment ++ ['*']) :
    codePieces ('/' :: '*' :: (comment ++ '*' :: '/' :: rest)) = codePieces rest := by
  have hsplit (tail : List Char) : '/' :: '*' :: (comment ++ '*' :: '/' :: tail) =
      ('/' :: '*' :: (comment ++ ['*', '/'])) ++ tail := by simp
  rw [hsplit]
  refine codePieces_append (p := []) (by simpa using hline) ?_
  have hpiece (line : List Char) : piece '/' ('*' :: (comment ++ ['*', '/']) ++ line) =
      (.comment, ('*' :: (comment ++ ['*', '/'])).length + 1) := by
    apply piece_comment
    rw [List.cons_append, List.append_assoc, commentLength?]
    show blockLength? 2 (comment ++ '*' :: '/' :: line) = _
    rw [blockLength?_append 2 line hline h]
    simp
    omega
  rw [pieces_append (hpiece _), List.filter_cons_of_neg (by simp [Group.isCode])]
  rfl

/-! ## Tokens -/

theorem takeWhile_firstLine {q : Char → Bool} (hq : q '\n' = false) (text : List Char) :
    (firstLine text).takeWhile q = text.takeWhile q := by
  induction text with
  | nil => rfl
  | cons c text ih =>
    by_cases hc : c = '\n'
    · subst hc
      simp [firstLine, hq]
    · cases hqc : q c <;> simp_all [firstLine]

theorem operatorLength?_single {c : Char} {line : List Char}
    (hc : ['-', '+', '*', '/', '%', '<', '>', '='].contains c = true)
    (h : ∀ tail, line ≠ '=' :: tail) : operatorLength? (c :: line) = some 1 := by
  generalize hx : c :: line = x
  fun_cases operatorLength? x with
  | case4 => rfl
  | case5 _ _ _ _ _ hnot =>
    cases hx
    exact absurd hc hnot
  | case6 => cases hx
  | _ =>
    cases hx
    exact absurd rfl (h _)

theorem piece_operator {c : Char} {line : List Char} {n : Nat}
    (hc : ['-', '+', '*', '/', '%', '<', '>', '='].contains c = true)
    (hcomment : commentLength? (c :: line) = none) (h : operatorLength? (c :: line) = some n) :
    piece c line = (.operator, n) := by
  have hnone : ['-', '+', '*', '/', '%', '<', '>', '='].all
      (fun e => !e.isDigit && !Token.isNameStart e) = true := rfl
  have hnot := List.all_eq_true.1 hnone c (List.contains_iff_mem.1 hc)
  simp only [Bool.and_eq_true, Bool.not_eq_true'] at hnot
  simp [piece, hcomment, hnot.1, hnot.2, h]

theorem piece_number {c : Char} (rest : List Char) (hc : c.isDigit = true) :
    piece c (firstLine rest) = (.number, ((c :: rest).takeWhile Char.isDigit).length) := by
  have hslash : c ≠ '/' := by
    rintro rfl
    cases hc
  simp [piece, commentLength?_of_ne hslash, hc, takeWhile_firstLine]

theorem piece_word {c : Char} (rest : List Char) (hc : Token.isNameStart c = true) :
    ∃ group, piece c (firstLine rest) = (group, ((c :: rest).takeWhile Token.isNamePart).length) ∧
      group.isCode = true ∧ group ≠ .error := by
  have hslash : c ≠ '/' := by
    rintro rfl
    cases hc
  have hpart := Token.isNamePart_of_isNameStart hc
  refine ⟨wordGroup ((c :: firstLine rest).takeWhile Token.isNamePart)
    ((c :: firstLine rest).dropWhile Token.isNamePart), ?_, ?_⟩
  · simp [piece, commentLength?_of_ne hslash, Token.not_isDigit_of_isNameStart hc, hc, hpart,
      takeWhile_firstLine (show Token.isNamePart '\n' = false from rfl)]
  · fun_cases wordGroup <;> simp [Group.isCode]

theorem firstLine_cons {c : Char} (hc : c ≠ '\n') (text : List Char) :
    firstLine (c :: text) = c :: firstLine text := by
  simp [firstLine, hc]

theorem firstLine_append {a : List Char} (ha : '\n' ∉ a) (text : List Char) :
    firstLine (a ++ text) = a ++ firstLine text := by
  induction a with
  | nil => rfl
  | cons c a ih =>
    simp only [List.mem_cons, not_or] at ha
    rw [List.cons_append, firstLine_cons (Ne.symm ha.1), ih ha.2, List.cons_append]

theorem firstLine_ne {c : Char} {text : List Char} (h : ∀ tail, text ≠ c :: tail)
    (tail : List Char) : firstLine text ≠ c :: tail := by
  intro heq
  obtain ⟨more, hmore⟩ := List.takeWhile_prefix (l := text) (· ≠ '\n')
  exact h (tail ++ more) (by rw [← hmore]; exact congrArg (· ++ more) heq)

/-- The piece at a place where a token can be read is as long as the first reading, and it is code. -/
theorem piece_of_readings {c : Char} {rest : List Char} {kind : Terminal} {n : Nat}
    {more : List (Terminal × Nat)} (hread : Token.readings (c :: rest) = (kind, n) :: more)
    (hcomment : commentLength? (c :: firstLine rest) = none) :
    ∃ group, piece c (firstLine rest) = (group, n) ∧ group.isCode = true ∧ group ≠ .error := by
  generalize hx : c :: rest = x at hread
  revert hread
  fun_cases Token.readings x with
  | case1 rest' | case2 rest' | case3 rest' =>
    intro hread
    cases hx
    cases hread
    refine ⟨.operator, piece_operator rfl hcomment ?_, rfl, by simp⟩
    rw [firstLine_cons (by decide)]
    rfl
  | case4 rest' hne | case5 rest' hne | case6 rest' hne =>
    intro hread
    cases hx
    cases hread
    exact ⟨.operator, piece_operator rfl hcomment (operatorLength?_single rfl (firstLine_ne hne)),
      rfl, by simp⟩
  | case7 | case8 | case9 | case10 | case11 =>
    intro hread
    cases hx
    cases hread
    exact ⟨.operator, piece_operator rfl hcomment rfl, rfl, by simp⟩
  | case12 | case13 | case14 | case15 | case16 | case17 =>
    intro hread
    cases hx
    cases hread
    exact ⟨.punctuation, rfl, rfl, by simp⟩
  | case18 _ _ _ _ =>
    intro hread
    rename_i hdigit
    cases hx
    cases hread
    exact ⟨.number, piece_number rest hdigit, rfl, by simp⟩
  | case19 =>
    intro hread
    rename_i hstart word k hk
    cases hx
    cases hread
    exact piece_word rest hstart
  | case20 =>
    intro hread
    rename_i hstart word hk
    cases hx
    cases hread
    exact piece_word rest hstart
  | case21 | case22 =>
    intro hread
    cases hread

theorem commentLength?_slash {rest : List Char} (hline : ∀ tail, rest ≠ '/' :: tail)
    (hblock : ∀ tail, rest ≠ '*' :: tail) : commentLength? ('/' :: rest) = none := by
  rw [commentLength?]
  · intro tail heq
    exact hline tail (List.cons.inj heq).2
  · intro tail heq
    exact hblock tail (List.cons.inj heq).2

/-- A piece of code at the start of a text, and what is left behind it. -/
theorem codePieces_of_piece {c : Char} {rest : List Char} {group : Group} {m : Nat}
    (h : piece c (firstLine rest) = (group, m + 1)) (hcode : group.isCode = true)
    (hle : m ≤ rest.length) (hnewline : '\n' ∉ c :: rest.take m) :
    codePieces (c :: rest) = (group, c :: rest.take m) :: codePieces (rest.drop m) := by
  have hlength : (rest.take m).length = m := by
    rw [List.length_take]
    omega
  have hsplit : firstLine rest = rest.take m ++ firstLine (rest.drop m) := by
    rw [← firstLine_append (fun hmem => hnewline (List.mem_cons_of_mem c hmem)),
      List.take_append_drop]
  have hpieces : pieces (c :: rest.take m ++ firstLine (rest.drop m)) =
      (group, c :: rest.take m) :: pieces (firstLine (rest.drop m)) := by
    apply pieces_append
    rw [← hsplit, h, hlength]
  calc codePieces (c :: rest)
      = codePieces (c :: rest.take m ++ rest.drop m) := by
        rw [List.cons_append, List.take_append_drop]
    _ = [(group, c :: rest.take m)] ++ codePieces (rest.drop m) := by
        apply codePieces_append hnewline
        rw [hpieces, List.filter_cons_of_pos (by simpa using hcode),
          List.singleton_append]

end Featherweight.Highlight

namespace Featherweight

open Highlight

/-- A token that is read is a piece of its line. -/
theorem Scans.codePieces_token {bound n : Nat} {d : Tree (.non .program)} {stack stack' : Stack Tree}
    {text : List Char} {kind : Terminal} {ls : List Lexeme} (hi : Token.ignored text = 0)
    (hfind : (Token.readings text).find? (fun r => stack.state.admits r.1) = some (kind, n))
    (hf : feed growing.node bound stack kind (.leaf kind (String.ofList (text.take n))) =
      .read stack')
    (h : Scans bound d stack' (text.drop n) ls) :
    ∃ group, codePieces text = (group, text.take n) :: codePieces (text.drop n) ∧ group ≠ .error := by
  obtain ⟨k, more, hread⟩ := first_reading hfind hf h
  obtain ⟨hpos, hle, hspelt⟩ := Token.spelt_of_mem_readings (hread ▸ List.mem_cons_self)
  have hnewline : '\n' ∉ text.take n := by
    simpa using hspelt.not_mem (c := '\n') rfl (by simp [signChars])
  have hslash := slash_cases hi hfind hf h
  obtain ⟨m, rfl⟩ : ∃ m, n = m + 1 := ⟨n - 1, by omega⟩
  cases text with
  | nil => cases hread
  | cons c rest =>
    have hcomment : commentLength? (c :: firstLine rest) = none := by
      rcases hslash with hmem | ⟨rest', heq, -, hline, hblock⟩
      · apply commentLength?_of_ne
        rintro rfl
        simp at hmem
      · cases heq
        exact commentLength?_slash (firstLine_ne hline) (firstLine_ne hblock)
    obtain ⟨group, hpiece, hcode, herror⟩ := piece_of_readings hread hcomment
    rw [List.length_cons] at hle
    exact ⟨group, codePieces_of_piece hpiece hcode (by omega) hnewline, herror⟩

/-- The code in the pieces of a text that is read are its tokens, where no block comment goes over the
end of a line. -/
theorem Scans.codePieces {bound : Nat} {d : Tree (.non .program)} {stack : Stack Tree}
    {text : List Char} {ls : List Lexeme} (h : Scans bound d stack text ls)
    (hlines : (stretches text).any Stretch.crossesLines = false) :
    (Highlight.codePieces text).map (·.2) = ls.map (·.text.toList) ∧
      ∀ p ∈ Highlight.codePieces text, p.1 ≠ .error := by
  induction h with
  | done => exact ⟨rfl, by simp [Highlight.codePieces, lines, pieces_nil]⟩
  | blank hc _ ih =>
    rw [stretches_blank hc, List.any_cons, Bool.or_eq_false_iff] at hlines
    rw [codePieces_blank hc]
    exact ih hlines.2
  | line hc hr _ ih =>
    rw [stretches_line hc hr, List.any_cons, Bool.or_eq_false_iff] at hlines
    rw [codePieces_line hc hr]
    exact ih hlines.2
  | @block _ comment rest _ hc _ ih =>
    rw [stretches_block rest hc, List.any_cons, Bool.or_eq_false_iff] at hlines
    have hline : '\n' ∉ comment := by simpa [Stretch.crossesLines] using hlines.1
    rw [codePieces_block rest hline hc]
    exact ih hlines.2
  | token hi hfind hf htail ih =>
    rw [stretches_token hi hfind hf htail, List.any_append, Bool.or_eq_false_iff] at hlines
    obtain ⟨group, hpieces, herror⟩ := codePieces_token hi hfind hf htail
    obtain ⟨htexts, herrors⟩ := ih hlines.2
    rw [hpieces]
    constructor
    · simp [htexts]
    · intro p hp
      rcases List.mem_cons.1 hp with rfl | hp
      · exact herror
      · exact herrors p hp

/-- In a program in which no block comment goes over the end of a line, the pieces of its lines that
are neither spaces nor comments are, in order, the texts of the tokens that the parser read, and no
piece is an error. -/
theorem colouring_finds_tokens (text : List Char) (e : Expr) (tokens : List Token)
    (h : Parser.parseTokens text = .ok (e, tokens))
    (hlines : (stretches text).any Stretch.crossesLines = false) :
    (codePieces text).map (·.2) = tokens.map (·.text.toList) ∧
      ∀ p ∈ (lines text).flatMap pieces, p.1 ≠ .error := by
  obtain ⟨d, hscan, -⟩ := Parser.parseTokens_eq_ok h
  have hscans := Parser.scan_growing_iff.1 ⟨tokens, hscan, rfl⟩
  obtain ⟨htexts, herrors⟩ := hscans.codePieces hlines
  constructor
  · rw [htexts, List.map_map]
    rfl
  · intro p hp herror
    have hcode : p ∈ codePieces text := List.mem_filter.2 ⟨hp, by simp [herror, Group.isCode]⟩
    exact herrors p hcode herror

/-- Signs that could be split, signs of comments in comments, and a return at the end of a line. -/
theorem colouring_finds_tokens_signs :
    let text := "if(a<=- 1)/*= // */f(a==0);// */\r\n\tb=\n- 1;".toList
    (stretches text).any Stretch.crossesLines = false ∧
    ∃ e tokens, Parser.parseTokens text = .ok (e, tokens) ∧
      tokens.map (·.text) = ["if", "(", "a", "<=", "-", "1", ")", "f", "(", "a", "==", "0", ")", ";",
        "b", "=", "-", "1", ";"] ∧
      (codePieces text).map (·.2) = tokens.map (·.text.toList) ∧
      ∀ p ∈ (lines text).flatMap pieces, p.1 ≠ .error := by
  intro text
  have hlines : (stretches text).any Stretch.crossesLines = false := by decide +kernel
  have hread : (Parser.parseTokens text).isOk = true := by decide +kernel
  have htokens : (Parser.parseTokens text).map (fun r => r.2.map (·.text)) =
      .ok ["if", "(", "a", "<=", "-", "1", ")", "f", "(", "a", "==", "0", ")", ";", "b", "=", "-",
        "1", ";"] := by decide +kernel
  obtain ⟨⟨e, tokens⟩, hparse⟩ := Session.exists_of_isOk hread
  rw [hparse] at htokens
  exact ⟨hlines, e, tokens, hparse, Except.ok.inj htokens,
    colouring_finds_tokens text e tokens hparse hlines⟩

end Featherweight
