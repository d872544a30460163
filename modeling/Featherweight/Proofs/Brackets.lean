import Featherweight.Proofs.Seam
import Featherweight.Proofs.Sessions
import Featherweight.Repl

/-!
# Featherweight.Proofs.Brackets

The prompt counts open brackets without reading tokens, and still never holds back a complete entry.

* `Tree.nest_yield` : the brackets in the tokens of a derivation are balanced.
* `Repl.bracketDepth_append` : what stands behind an entry and has no signs of comments or brackets in
  it changes nothing in the count.
* `Scans.stripped` : in a text that is read as tokens no open comment is left when the comments go, and
  the brackets of what is left are those of the tokens.
* `entry_submits` : the enter key submits every entry that is read, as it is or with a semicolon put
  behind it.
-/

namespace Featherweight

/-! ## Brackets of a derivation -/

/-- How many brackets are open after one more token. -/
def Terminal.nest (n : Nat) : Terminal → Nat
  | .lpar | .lbrace => n + 1
  | .rpar | .rbrace => n - 1
  | _ => n

def Symbol.nest (n : Nat) : Symbol → Nat
  | .term t => t.nest n
  | .non _ => n

def Lexeme.nest (n : Nat) (l : Lexeme) : Nat := l.kind.nest n

theorem Production.nest_rhs (p : Production) (n : Nat) : p.rhs.foldl Symbol.nest n = n := by
  cases p <;> simp [rhs, Symbol.nest, Terminal.nest]

mutual

theorem Tree.nest_yield {X : Symbol} (d : Tree X) (n : Nat) :
    d.yield.foldl Lexeme.nest n = X.nest n := by
  match d with
  | .leaf _ _ => rfl
  | .node p parts => rw [Tree.yield, parts.nest_yield, p.nest_rhs, Symbol.nest]

theorem Forest.nest_yield {word : List Symbol} (ds : Forest word) (n : Nat) :
    ds.yield.foldl Lexeme.nest n = word.foldl Symbol.nest n := by
  match ds with
  | .nil => rfl
  | .cons head tail =>
    rw [Forest.yield, List.foldl_append, head.nest_yield, tail.nest_yield, List.foldl_cons]

end

/-! ## Texts without comments -/

namespace Repl

/-- The characters of comment signs, and brackets. -/
def signs : List Char := ['/', '*', '(', ')', '\x7b', '\x7d']

def isPlain (c : Char) : Bool := !signs.contains c

variable {text rest : List Char} {c : Char}

theorem isPlain_of {p : Char → Bool} (hp : signs.all (fun e => !p e) = true) (h : p c = true) :
    isPlain c = true := by
  have hc : c ∉ signs := by
    intro hmem
    have hnot := List.all_eq_true.1 hp c hmem
    rw [h] at hnot
    cases hnot
  simpa [isPlain] using hc

theorem isPlain_of_isNamePart (h : Token.isNamePart c = true) : isPlain c = true :=
  isPlain_of rfl h

theorem isPlain_of_isBlank (h : Token.isBlank c = true) : isPlain c = true :=
  isPlain_of rfl h

theorem isPlain_of_isSpace (h : Text.isSpace c = true) : isPlain c = true :=
  isPlain_of rfl h

theorem countBracket_of_plain {n : Nat} (h : isPlain c = true) : countBracket n c = n := by
  simp only [isPlain, signs, List.contains_cons] at h
  simp_all [countBracket]

theorem stripFrom_nil (n : Nat) : stripFrom n [] = [] := by
  cases n <;> rfl

/-- The bound on the length is never what ends it. -/
theorem stripFrom_of_le {n m : Nat} (hn : text.length ≤ n) (hm : text.length ≤ m) :
    stripFrom n text = stripFrom m text := by
  fun_induction stripFrom n text generalizing m with
  | case1 text =>
    obtain rfl := List.eq_nil_of_length_eq_zero (Nat.le_zero.1 hn)
    rw [stripFrom_nil]
  | case2 n rest ih =>
    obtain ⟨m, rfl⟩ := Nat.exists_eq_add_of_le' (Nat.le_trans (Nat.succ_pos _) hm)
    have hlen := (List.dropWhile_suffix (l := rest) (· ≠ '\n')).length_le
    simp only [List.length_cons] at hn hm
    rw [stripFrom]
    exact ih (by omega) (by omega)
  | case3 n rest k hk ih =>
    obtain ⟨m, rfl⟩ := Nat.exists_eq_add_of_le' (Nat.le_trans (Nat.succ_pos _) hm)
    simp only [List.length_cons] at hn hm
    rw [stripFrom, hk]
    exact ih (by simp; omega) (by simp; omega)
  | case4 n rest hk ih =>
    obtain ⟨m, rfl⟩ := Nat.exists_eq_add_of_le' (Nat.le_trans (Nat.succ_pos _) hm)
    simp only [List.length_cons] at hn hm ih
    rw [stripFrom, hk]
    exact congrArg ('/' :: ·) (ih (by omega) (by omega))
  | case5 n c rest hline hblock ih =>
    obtain ⟨m, rfl⟩ := Nat.exists_eq_add_of_le' (Nat.le_trans (Nat.succ_pos _) hm)
    simp only [List.length_cons] at hn hm ih
    rw [stripFrom.eq_4 _ _ _ hline hblock]
    exact congrArg (c :: ·) (ih (by omega) (by omega))
  | case6 n => rw [stripFrom_nil]

theorem stripComments_line (rest : List Char) :
    stripComments ('/' :: '/' :: rest) = stripComments (rest.dropWhile (· ≠ '\n')) := by
  have hlen := (List.dropWhile_suffix (l := rest) (· ≠ '\n')).length_le
  rw [stripComments, List.length_cons, stripFrom]
  exact stripFrom_of_le (Nat.le_succ_of_le hlen) (Nat.le_refl _)

theorem stripComments_block {n : Nat} (h : Token.commentEnd? 0 rest = some n) :
    stripComments ('/' :: '*' :: rest) = stripComments (rest.drop n) := by
  rw [stripComments, List.length_cons, stripFrom, h]
  exact stripFrom_of_le (by simp; omega) (Nat.le_refl _)

theorem stripComments_open (h : Token.commentEnd? 0 rest = none) :
    stripComments ('/' :: '*' :: rest) = '/' :: stripComments ('*' :: rest) := by
  rw [stripComments, List.length_cons, stripFrom, h]
  rfl

theorem stripComments_cons (hline : ∀ tail, c = '/' → rest = '/' :: tail → False)
    (hblock : ∀ tail, c = '/' → rest = '*' :: tail → False) :
    stripComments (c :: rest) = c :: stripComments rest := by
  rw [stripComments, List.length_cons, stripFrom.eq_4 _ _ _ hline hblock]
  rfl

/-- Where no comment can start the text stays as it is. -/
theorem stripComments_of_no_slash (h : '/' ∉ text) (rest : List Char) :
    stripComments (text ++ rest) = text ++ stripComments rest := by
  induction text with
  | nil => rfl
  | cons c text ih =>
    rw [List.mem_cons, not_or] at h
    rw [List.cons_append, stripComments_cons, ih h.2, List.cons_append]
    · exact fun _ hc _ => h.1 hc.symm
    · exact fun _ hc _ => h.1 hc.symm

theorem opensComment_append (h : '/' ∉ text) (rest : List Char) :
    opensComment (text ++ rest) = opensComment rest := by
  induction text with
  | nil => rfl
  | cons c text ih =>
    rw [List.mem_cons, not_or] at h
    rw [List.cons_append, opensComment, ih h.2]
    exact fun _ hc _ => h.1 hc.symm

/-! ## What stands behind an entry -/

section Plain

variable {tail : List Char} (htail : ∀ c ∈ tail, isPlain c = true)
include htail

theorem not_mem_of_plain {c : Char} (hc : isPlain c = false) : c ∉ tail := by
  intro hmem
  rw [htail c hmem] at hc
  cases hc

theorem append_ne_of_plain {text : List Char} (hc : isPlain c = false)
    (h : ∀ more, text = c :: more → False) (more : List Char) : text ++ tail ≠ c :: more := by
  intro heq
  cases text with
  | nil => exact not_mem_of_plain htail hc (by simp [show tail = c :: more from heq])
  | cons e text =>
    cases heq
    exact h _ rfl

theorem commentEnd?_plain (n : Nat) : Token.commentEnd? n tail = none := by
  cases h : Token.commentEnd? n tail with
  | none => rfl
  | some m =>
    obtain ⟨comment, rest, rfl, -, -⟩ := Token.commentEnd?_eq_some h
    exact absurd (by simp) (not_mem_of_plain htail (c := '*') (by decide))

theorem commentEnd?_append_plain (n : Nat) (text : List Char) :
    Token.commentEnd? n (text ++ tail) = Token.commentEnd? n text := by
  fun_induction Token.commentEnd? n text with
  | case1 n rest => rfl
  | case2 n c rest hne ih =>
    rw [List.cons_append, Token.commentEnd?, ih]
    intro more hc heq
    exact append_ne_of_plain htail (by decide) (fun more' => hne more' hc) more heq
  | case3 n => exact commentEnd?_plain htail n

theorem stripComments_plain : stripComments tail = tail := by
  have hslash : '/' ∉ tail := not_mem_of_plain htail (by decide)
  have hstrip := stripComments_of_no_slash hslash []
  rwa [show stripComments [] = [] from rfl, List.append_nil] at hstrip

theorem stripFrom_append {n : Nat} {text : List Char} (hn : text.length ≤ n) :
    ∃ kept, kept <:+ tail ∧ stripComments (text ++ tail) = stripFrom n text ++ kept := by
  fun_induction stripFrom n text with
  | case1 text =>
    obtain rfl := List.eq_nil_of_length_eq_zero (Nat.le_zero.1 hn)
    exact ⟨tail, List.suffix_refl _, stripComments_plain htail⟩
  | case2 n rest ih =>
    have hlen := (List.dropWhile_suffix (l := rest) (· ≠ '\n')).length_le
    simp only [List.length_cons] at hn
    rw [List.cons_append, List.cons_append, stripComments_line, List.dropWhile_append]
    split
    · rename_i hempty
      have hsuffix := List.dropWhile_suffix (l := tail) (· ≠ '\n')
      rw [List.isEmpty_iff.1 hempty, stripFrom_nil]
      exact ⟨_, hsuffix, stripComments_plain fun c hc => htail c (hsuffix.subset hc)⟩
    · exact ih (by omega)
  | case3 n rest k hk ih =>
    have hle : k ≤ rest.length := by
      obtain ⟨comment, behind, rfl, rfl, -⟩ := Token.commentEnd?_eq_some hk
      simp
    have hend := (commentEnd?_append_plain htail 0 rest).trans hk
    simp only [List.length_cons] at hn
    rw [List.cons_append, List.cons_append, stripComments_block hend,
      List.drop_append_of_le_length hle]
    exact ih (by simp; omega)
  | case4 n rest hk ih =>
    simp only [List.length_cons] at hn
    obtain ⟨kept, hkept, heq⟩ := ih (by simp; omega)
    refine ⟨kept, hkept, ?_⟩
    rw [List.cons_append, List.cons_append,
      stripComments_open ((commentEnd?_append_plain htail 0 rest).trans hk), ← List.cons_append, heq,
      List.cons_append]
  | case5 n c rest hline hblock ih =>
    simp only [List.length_cons] at hn
    obtain ⟨kept, hkept, heq⟩ := ih (by omega)
    refine ⟨kept, hkept, ?_⟩
    rw [List.cons_append, stripComments_cons, heq, List.cons_append]
    · exact fun more hc => append_ne_of_plain htail (by decide) (fun m => hline m hc) more
    · exact fun more hc => append_ne_of_plain htail (by decide) (fun m => hblock m hc) more
  | case6 n => exact ⟨tail, List.suffix_refl _, stripComments_plain htail⟩

/-- A comment that is open stays so, and none opens. -/
theorem opensComment_append_plain (text : List Char) :
    opensComment (text ++ tail) = opensComment text := by
  fun_induction opensComment text with
  | case1 => rfl
  | case2 c rest hne ih =>
    rw [List.cons_append, opensComment, ih]
    intro more hc heq
    exact append_ne_of_plain htail (by decide) (fun more' => hne more' hc) more heq
  | case3 =>
    simpa [opensComment] using opensComment_append (not_mem_of_plain htail (c := '/') (by decide)) []

theorem countBracket_plain (n : Nat) : tail.foldl countBracket n = n := by
  induction tail with
  | nil => rfl
  | cons c tail ih =>
    obtain ⟨hc, hrest⟩ := List.forall_mem_cons.1 htail
    rw [List.foldl_cons, countBracket_of_plain hc, ih hrest]

theorem bracketDepth_append (text : List Char) : bracketDepth (text ++ tail) = bracketDepth text := by
  obtain ⟨kept, hkept, hstrip⟩ := stripFrom_append htail (Nat.le_refl text.length)
  have hplain : ∀ c ∈ kept, isPlain c = true := fun c hc => htail c (hkept.subset hc)
  simp only [bracketDepth]
  rw [hstrip, opensComment_append_plain hplain, List.foldl_append, countBracket_plain hplain]
  rfl

end Plain

/-! ## Texts that are read -/

/-- A text that does not start with a slash keeps its first character. -/
theorem head?_stripComments (h : ∀ tail, rest ≠ '/' :: tail) :
    (stripComments rest).head? = rest.head? := by
  cases rest with
  | nil => rfl
  | cons c rest =>
    rw [stripComments_cons, List.head?_cons, List.head?_cons]
    · rintro tail rfl
      exact absurd rfl (h _)
    · rintro tail rfl
      exact absurd rfl (h _)

end Repl

open Repl

/-- Words and numbers have no brackets in them and no comment signs. -/
theorem Lexeme.Spelt.plain {l : Lexeme} (h : l.Spelt) (hk : l.kind = .int ∨ l.kind = .name) :
    ∀ c ∈ l.text.toList, isPlain c = true := by
  obtain ⟨kind, text⟩ := l
  intro c hc
  rcases hk with rfl | rfl
  · exact isPlain_of_isNamePart (by simp [Token.isNamePart, h.2 c hc])
  · obtain ⟨e, rest, htext, hstart, hparts⟩ := h
    rw [show text.toList = e :: rest from htext] at hc
    rcases List.mem_cons.1 hc with rfl | hc
    · exact isPlain_of_isNamePart (Token.isNamePart_of_isNameStart hstart)
    · exact isPlain_of_isNamePart (hparts c hc)

/-- A token is a slash, or none of its characters is one. -/
theorem Lexeme.Spelt.slash {l : Lexeme} (h : l.Spelt) (hs : '/' ∈ l.text.toList) :
    l.kind = .op .div := by
  have hplain := h.plain
  obtain ⟨kind, text⟩ := l
  cases kind with
  | eof => cases h
  | int => exact absurd (hplain (.inl rfl) _ hs) (by decide)
  | name => exact absurd (hplain (.inr rfl) _ hs) (by decide)
  | op o =>
    obtain rfl : text = o.symbol := h
    revert hs
    cases o <;> decide
  | keyword k =>
    obtain rfl : text = k.text := h
    revert hs
    cases k <;> decide
  | _ =>
    obtain rfl : text = _ := h
    exact absurd hs (by decide)

theorem Lexeme.Spelt.countBracket {l : Lexeme} (h : l.Spelt) (n : Nat) :
    l.text.toList.foldl countBracket n = l.nest n := by
  have hplain := h.plain
  obtain ⟨kind, text⟩ := l
  cases kind with
  | eof => cases h
  | int => exact countBracket_plain (hplain (.inl rfl)) n
  | name => exact countBracket_plain (hplain (.inr rfl)) n
  | op o =>
    obtain rfl : text = o.symbol := h
    cases o <;> rfl
  | keyword k =>
    obtain rfl : text = k.text := h
    cases k <;> rfl
  | _ =>
    obtain rfl : text = _ := h
    rfl

theorem Token.eq_slash_of_spelt {text : List Char} {n : Nat} (hle : n ≤ text.length)
    (h : Lexeme.Spelt ⟨.op .div, String.ofList (text.take n)⟩) :
    ∃ rest, text = '/' :: rest ∧ n = 1 := by
  have htake : text.take n = ['/'] := by
    have hlist := congrArg String.toList h
    rwa [String.toList_ofList] at hlist
  have hn : n = 1 := by
    have hlen := congrArg List.length htake
    rw [List.length_take, Nat.min_eq_left hle] at hlen
    exact hlen
  subst hn
  cases text with
  | nil => cases htake
  | cons c rest =>
    cases htake
    exact ⟨rest, rfl, rfl⟩

/-- A token that is read is a slash with no sign of a comment behind it, or has no slash in it. -/
theorem Scans.slash_cases {bound n : Nat} {d : Tree (.non .program)} {stack stack' : Stack Tree}
    {text : List Char} {kind : Terminal} {ls : List Lexeme} (hi : Token.ignored text = 0)
    (hfind : (Token.readings text).find? (fun r => stack.state.admits r.1) = some (kind, n))
    (hf : feed growing.node bound stack kind (.leaf kind (String.ofList (text.take n))) =
      .read stack')
    (h : Scans bound d stack' (text.drop n) ls) :
    '/' ∉ text.take n ∨ ∃ rest, text = '/' :: rest ∧ n = 1 ∧ (∀ tail, rest ≠ '/' :: tail) ∧
      ∀ tail, rest ≠ '*' :: tail := by
  obtain ⟨-, hle, hspelt⟩ := Token.spelt_of_mem_readings (List.mem_of_find?_eq_some hfind)
  have hslash := hspelt.slash
  rw [String.toList_ofList] at hslash
  by_cases hmem : '/' ∈ text.take n
  · obtain rfl := hslash hmem
    obtain ⟨rest, rfl, rfl⟩ := Token.eq_slash_of_spelt hle hspelt
    refine .inr ⟨rest, rfl, rfl, ?_, ?_⟩
    · rintro tail rfl
      rw [Token.ignored] at hi
      omega
    · rintro tail rfl
      exact not_open_of_token hfind hf h tail rfl
  · exact .inl hmem

namespace Scans

variable {bound : Nat} {d : Tree (.non .program)} {stack : Stack Tree} {text : List Char}
  {ls : List Lexeme}

/-- A text that is read has no comment left open, and its brackets are those of its tokens. -/
theorem stripped (h : Scans bound d stack text ls) :
    opensComment (stripComments text) = false ∧
      ∀ n, (stripComments text).foldl countBracket n = ls.foldl Lexeme.nest n := by
  induction h with
  | done => exact ⟨rfl, fun _ => rfl⟩
  | @blank _ c rest _ hc _ ih =>
    have hplain : ∀ e ∈ [c], isPlain e = true := by simpa using isPlain_of_isBlank hc
    have hslash : '/' ∉ [c] := not_mem_of_plain hplain (by decide)
    rw [← List.singleton_append, stripComments_of_no_slash hslash, opensComment_append hslash]
    refine ⟨ih.1, fun n => ?_⟩
    rw [List.foldl_append, countBracket_plain hplain, ih.2]
  | @line _ comment rest _ hc hr _ ih =>
    rwa [stripComments_line, (Token.line_split hc hr).2]
  | @block _ comment rest _ hc _ ih =>
    have hdrop : (comment ++ '*' :: '/' :: rest).drop (0 + comment.length + 2) = rest := by
      simp [List.drop_append]
    rwa [stripComments_block (Token.commentEnd?_append 0 rest hc), hdrop]
  | @token stack _ text kind n ls hi hfind hf htail ih =>
    have hspelt := (Token.spelt_of_mem_readings (List.mem_of_find?_eq_some hfind)).2.2
    have hcount := hspelt.countBracket
    simp only [String.toList_ofList] at hcount
    rcases slash_cases hi hfind hf htail with hmem | ⟨rest, rfl, rfl, hline, hblock⟩
    · rw [← List.take_append_drop n text, stripComments_of_no_slash hmem, opensComment_append hmem]
      refine ⟨ih.1, fun m => ?_⟩
      rw [List.foldl_append, hcount, ih.2, List.foldl_cons, List.take_append_drop]
    · rw [List.drop_succ_cons, List.drop_zero] at ih
      have hopen : ∀ tail, stripComments rest ≠ '*' :: tail := by
        intro tail heq
        have hhead := head?_stripComments hline
        cases rest with
        | nil => cases heq
        | cons c rest =>
          rw [heq] at hhead
          cases hhead
          exact hblock rest rfl
      rw [stripComments_cons (fun tail _ => hline tail) (fun tail _ => hblock tail), opensComment]
      · refine ⟨ih.1, fun m => ?_⟩
        rw [List.foldl_cons, ih.2, List.foldl_cons, ← hcount]
        rfl
      · exact fun tail _ => hopen tail

end Scans

theorem bracketDepth_of_parse {text : String} {e : Expr} (h : parse text = .ok e) :
    bracketDepth text.toList = 0 := by
  obtain ⟨tokens, hp⟩ := parse_eq_ok.1 h
  obtain ⟨d, hscan, -⟩ := Parser.parseTokens_eq_ok hp
  have hscans := Parser.scan_growing_iff.1 ⟨tokens, hscan, rfl⟩
  obtain ⟨hopen, hcount⟩ := hscans.stripped
  have hyield : d.yield = tokens.map Token.lexeme := hscans.yield trivial
  simp only [bracketDepth, hopen]
  rw [if_neg (by decide), hcount, ← hyield, d.nest_yield, Symbol.nest]

theorem bracketDepth_completed (text : String) :
    bracketDepth (Session.completed text).toList = bracketDepth text.toList := by
  obtain ⟨spaces, hspaces, htext⟩ := Text.exists_trimRight text.toList
  have hplain : ∀ c ∈ spaces, isPlain c = true := fun c hc => isPlain_of_isSpace (hspaces c hc)
  calc bracketDepth (Session.completed text).toList
      = bracketDepth (Text.trimRight text.toList ++ ['\n', ';']) := by rw [Session.toList_completed]
    _ = bracketDepth (Text.trimRight text.toList) :=
        bracketDepth_append (List.all_eq_true.1 rfl) _
    _ = bracketDepth (Text.trimRight text.toList ++ spaces) := (bracketDepth_append hplain _).symm
    _ = bracketDepth text.toList := by rw [← htext]

/-- An entry that is read, as it is or with a semicolon put behind it, has no open bracket, so the
enter key submits it. -/
theorem entry_submits (text : String)
    (h : (∃ e, Session.parseEntry text = .ok e) ∨ (∃ e, parse text = .ok e) ∨
      ∃ e, parse (Session.completed text) = .ok e) :
    bracketDepth text.toList = 0 ∧ needsMore text.toList = false ∧
    ∀ (s : Repl.State) (line : String), s.buffer ++ line.toList = text.toList →
      s.handle (.enter line) = s.accept text.toList := by
  have hdepth : bracketDepth text.toList = 0 := by
    have hcases : (∃ e, parse text = .ok e) ∨ ∃ e, parse (Session.completed text) = .ok e := by
      rcases h with ⟨e, he⟩ | h
      · exact (Session.parseEntry_eq_ok.1 he).imp (⟨e, ·⟩) fun hok => ⟨e, hok.2⟩
      · exact h
    rcases hcases with ⟨e, he⟩ | ⟨e, he⟩
    · exact bracketDepth_of_parse he
    · rw [← bracketDepth_completed]
      exact bracketDepth_of_parse he
  have hmore : needsMore text.toList = false := by simp [needsMore, hdepth]
  refine ⟨hdepth, hmore, fun s line hline => ?_⟩
  have haccepts : Repl.State.accepts text.toList = true := by simp [Repl.State.accepts, hmore]
  rw [Repl.State.handle]
  simp only [hline, haccepts, if_true]

/-- The entry lacks its semicolon, and its comments hold brackets and comment signs. -/
theorem entry_submits_comments :
    let text := "f(1 /* ) // */) / // /* (\n 2"
    ((parse text).isOk = false ∧ (Session.parseEntry text).isOk = true ∧
      needsMore (text.toList.take 4) = true) ∧
    bracketDepth text.toList = 0 ∧ needsMore text.toList = false := by
  intro text
  have hread : (Session.parseEntry text).isOk = true := by decide +kernel
  obtain ⟨e, he⟩ := Session.exists_of_isOk hread
  obtain ⟨hdepth, hmore, -⟩ := entry_submits text (.inl ⟨e, he⟩)
  exact ⟨⟨by decide +kernel, hread, by decide⟩, hdepth, hmore⟩

end Featherweight
