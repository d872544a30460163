import Featherweight.Proofs.Brackets

/-!
# Featherweight.Proofs.Stretches

How a text falls into comments and code, and code into tokens, without a look at the state of the
machine.

* `stretches` cuts a text into its comments and the characters that are in none.
* `Scans.stretches_token` : the characters of a token are in no comment.
* `Scans.first_reading` : in a text that is read every token is as long as it can be. The machine would
  split a sign that it cannot take whole, but it never takes what is then left of the sign.
-/

namespace Featherweight

/-! ## The characters of tokens -/

/-- Words and numbers aside, a token consists of these characters. -/
def signChars : List Char :=
  ['+', '-', '*', '/', '%', '<', '>', '=', ',', ';', '(', ')', '\x7b', '\x7d']

theorem Lexeme.Spelt.word_or_sign {l : Lexeme} (h : l.Spelt) :
    (∀ c ∈ l.text.toList, Token.isNamePart c = true) ∨ ∀ c ∈ l.text.toList, c ∈ signChars := by
  obtain ⟨kind, text⟩ := l
  cases kind with
  | eof => cases h
  | int => exact .inl fun c hc => by simp [Token.isNamePart, h.2 c hc]
  | name =>
    obtain ⟨first, rest, htext, hfirst, hrest⟩ := h
    left
    intro c hc
    rw [show text.toList = first :: rest from htext] at hc
    rcases List.mem_cons.1 hc with rfl | hc
    · exact Token.isNamePart_of_isNameStart hfirst
    · exact hrest c hc
  | op o =>
    obtain rfl : text = o.symbol := h
    right
    cases o <;> simp [Op.symbol, signChars]
  | keyword k =>
    obtain rfl : text = k.text := h
    left
    cases k <;> exact List.all_eq_true.1 rfl
  | _ =>
    obtain rfl : text = _ := h
    right
    simp [signChars]

theorem Lexeme.Spelt.not_mem {l : Lexeme} (h : l.Spelt) {c : Char} (hpart : Token.isNamePart c = false)
    (hsign : c ∉ signChars) : c ∉ l.text.toList := by
  intro hmem
  rcases h.word_or_sign with hword | hsigns
  · rw [hword c hmem] at hpart
    cases hpart
  · exact hsign (hsigns c hmem)

/-! ## Comments and code -/

/-- A comment without its signs, or a character that is in no comment. -/
inductive Stretch where
  | code (c : Char)
  | line (comment : List Char)
  | block (comment : List Char)
deriving DecidableEq, Repr

/-- Whether a stretch is a block comment that goes over the end of a line. -/
def Stretch.crossesLines : Stretch → Bool
  | .block comment => comment.contains '\n'
  | _ => false

def Stretch.isComment : Stretch → Bool
  | .code _ => false
  | _ => true

/-- The stretches of a text of at most `fuel` characters. A block comment that is not closed is
none. -/
def stretchesFrom : Nat → List Char → List Stretch
  | 0, _ => []
  | fuel + 1, '/' :: '/' :: rest =>
    .line (rest.takeWhile (· ≠ '\n')) :: stretchesFrom fuel (rest.dropWhile (· ≠ '\n'))
  | fuel + 1, '/' :: '*' :: rest =>
    match Token.commentEnd? 0 rest with
    | some n => .block (rest.take (n - 2)) :: stretchesFrom fuel (rest.drop n)
    | none => .code '/' :: stretchesFrom fuel ('*' :: rest)
  | fuel + 1, c :: rest => .code c :: stretchesFrom fuel rest
  | _ + 1, [] => []

def stretches (text : List Char) : List Stretch := stretchesFrom text.length text

section Stretches

variable {text rest : List Char} {c : Char}

/-- The bound on the length is never what ends it. -/
theorem stretchesFrom_of_le {n m : Nat} (hn : text.length ≤ n) (hm : text.length ≤ m) :
    stretchesFrom n text = stretchesFrom m text := by
  fun_induction stretchesFrom n text generalizing m with
  | case1 text =>
    obtain rfl := List.eq_nil_of_length_eq_zero (Nat.le_zero.1 hn)
    cases m <;> rfl
  | case2 n rest ih =>
    have hlen := (List.dropWhile_suffix (l := rest) (· ≠ '\n')).length_le
    simp only [List.length_cons] at hn hm
    obtain ⟨m, rfl⟩ : ∃ k, m = k + 1 := ⟨m - 1, by omega⟩
    rw [stretchesFrom, ih (m := m) (by omega) (by omega)]
  | case3 n rest k hk ih =>
    simp only [List.length_cons, List.length_drop] at hn hm ih
    obtain ⟨m, rfl⟩ : ∃ k, m = k + 1 := ⟨m - 1, by omega⟩
    rw [stretchesFrom, hk]
    exact congrArg (_ :: ·) (ih (by omega) (by omega))
  | case4 n rest hk ih =>
    simp only [List.length_cons] at hn hm ih
    obtain ⟨m, rfl⟩ : ∃ k, m = k + 1 := ⟨m - 1, by omega⟩
    rw [stretchesFrom, hk]
    exact congrArg (_ :: ·) (ih (by omega) (by omega))
  | case5 n c rest hline hblock ih =>
    simp only [List.length_cons] at hn hm
    obtain ⟨m, rfl⟩ : ∃ k, m = k + 1 := ⟨m - 1, by omega⟩
    rw [stretchesFrom.eq_4 _ _ _ hline hblock, ih (m := m) (by omega) (by omega)]
  | case6 n => cases m <;> rfl

theorem stretches_line {comment : List Char} (hc : '\n' ∉ comment)
    (hr : ∀ c ∈ rest.head?, c = '\n') :
    stretches ('/' :: '/' :: (comment ++ rest)) = .line comment :: stretches rest := by
  obtain ⟨htake, hdrop⟩ := Token.line_split hc hr
  rw [stretches, List.length_cons, stretchesFrom, htake, hdrop, stretches,
    stretchesFrom_of_le (by simp; omega) (Nat.le_refl _)]

theorem stretches_block {comment : List Char} (rest : List Char)
    (h : ¬ ['*', '/'] <:+: comment ++ ['*']) :
    stretches ('/' :: '*' :: (comment ++ '*' :: '/' :: rest)) = .block comment :: stretches rest := by
  have hdrop : (comment ++ '*' :: '/' :: rest).drop (0 + comment.length + 2) = rest := by
    simp [List.drop_append]
  have htake : (comment ++ '*' :: '/' :: rest).take (0 + comment.length + 2 - 2) = comment := by
    simp
  rw [stretches, List.length_cons, stretchesFrom, Token.commentEnd?_append 0 rest h]
  simp only []
  rw [hdrop, htake, stretches, stretchesFrom_of_le (by simp; omega) (Nat.le_refl _)]

theorem stretches_cons (hline : ∀ tail, c = '/' → rest = '/' :: tail → False)
    (hblock : ∀ tail, c = '/' → rest = '*' :: tail → False) :
    stretches (c :: rest) = .code c :: stretches rest := by
  rw [stretches, List.length_cons, stretchesFrom.eq_4 _ _ _ hline hblock]
  rfl

/-- Where no comment can start there is code only. -/
theorem stretches_append_of_no_slash (h : '/' ∉ text) (rest : List Char) :
    stretches (text ++ rest) = text.map .code ++ stretches rest := by
  induction text with
  | nil => rfl
  | cons c text ih =>
    simp only [List.mem_cons, not_or] at h
    rw [List.cons_append, stretches_cons, ih h.2, List.map_cons, List.cons_append]
    · exact fun _ hc _ => h.1 hc.symm
    · exact fun _ hc _ => h.1 hc.symm

theorem stretches_blank (h : Token.isBlank c = true) (rest : List Char) :
    stretches (c :: rest) = .code c :: stretches rest := by
  have hc : c ≠ '/' := by
    rintro rfl
    cases h
  exact stretches_cons (fun _ heq => absurd heq hc) (fun _ heq => absurd heq hc)

/-- The first stretch is the first character or a comment. -/
theorem stretches_head (c : Char) (rest : List Char) :
    ∃ s tail, stretches (c :: rest) = s :: tail ∧ (s = .code c ∨ s.isComment = true) := by
  rw [stretches, List.length_cons]
  generalize hx : c :: rest = x
  generalize hk : rest.length + 1 = k
  fun_cases stretchesFrom k x with
  | case1 => cases hk
  | case2 | case3 => exact ⟨_, _, rfl, .inr rfl⟩
  | case4 | case5 =>
    cases hx
    exact ⟨_, _, rfl, .inl rfl⟩
  | case6 => cases hx

end Stretches

/-- The characters of a token that is read are in no comment. -/
theorem Scans.stretches_token {bound n : Nat} {d : Tree (.non .program)} {stack stack' : Stack Tree}
    {text : List Char} {kind : Terminal} {ls : List Lexeme} (hi : Token.ignored text = 0)
    (hfind : (Token.readings text).find? (fun r => stack.state.admits r.1) = some (kind, n))
    (hf : feed growing.node bound stack kind (.leaf kind (String.ofList (text.take n))) =
      .read stack')
    (h : Scans bound d stack' (text.drop n) ls) :
    stretches text = (text.take n).map .code ++ stretches (text.drop n) := by
  rcases slash_cases hi hfind hf h with hmem | ⟨rest, rfl, rfl, hline, hblock⟩
  · rw [← stretches_append_of_no_slash hmem, List.take_append_drop]
  · exact stretches_cons (fun tail _ => hline tail) (fun tail _ => hblock tail)

/-! ## Signs and what follows them -/

/-- The equals sign of an assignment, and the operators. -/
def Terminal.isSign : Terminal → Bool
  | .equal | .op _ => true
  | _ => false

namespace State

/-- The states behind a sign. -/
def behindSign : List State := [varEqual, nameEqual, minus] ++ Op.all.map operator

theorem mem_behindSign {s s' : State} {t : Terminal} (ht : t.isSign = true)
    (h : s.move? (.term t) = some s') : s' ∈ behindSign := by
  have hall := forall_of_all (q := fun s => s.moves.all fun m =>
    match m.1 with
    | .term t => !t.isSign || behindSign.contains m.2
    | _ => true) (by decide) s
  simpa [ht] using List.all_eq_true.1 hall _ (mem_moves_of_move? h)

/-- Behind a sign an operand comes, and the only sign that an operand starts with is the minus sign. -/
theorem not_admits_behind_sign {s s' : State} {t k : Terminal} (ht : t.isSign = true)
    (h : s.move? (.term t) = some s') (hk : k.isSign = true) (hminus : k ≠ .op .sub) :
    s'.admits k = false := by
  have hall : (behindSign.all fun s => Terminal.all.all fun k =>
      !k.isSign || k = .op .sub || !s.admits k) = true := by decide
  have hs := List.all_eq_true.1 (List.all_eq_true.1 hall s' (mem_behindSign ht h)) k k.mem_all
  simpa [hk, hminus] using hs

end State

namespace Token

/-- The characters that signs other than the minus sign start with. -/
def signStarts : List Char := ['<', '>', '=', '+', '*', '/', '%']

theorem isSign_of_mem_readings {c : Char} {text : List Char} {kind : Terminal} {n : Nat}
    (hc : c ∈ signStarts) (h : (kind, n) ∈ readings (c :: text)) :
    kind.isSign = true ∧ kind ≠ .op .sub := by
  generalize hx : c :: text = x at h
  revert h
  fun_cases readings x with
  | case1 | case2 | case3 =>
    intro h
    simp only [List.mem_cons, Prod.mk.injEq, List.not_mem_nil, or_false] at h
    rcases h with ⟨rfl, -⟩ | ⟨rfl, -⟩ <;> simp [Terminal.isSign]
  | case4 | case5 | case6 | case7 | case9 | case10 | case11 =>
    intro h
    obtain ⟨rfl, -⟩ : kind = _ ∧ n = 1 := by simpa using h
    simp [Terminal.isSign]
  | case18 | case19 | case20 =>
    cases hx
    have hall : signStarts.all (fun e => !e.isDigit && !isNameStart e) = true := rfl
    have hnot := List.all_eq_true.1 hall c hc
    simp_all
  | case21 | case22 =>
    intro h
    cases h
  | _ =>
    cases hx
    simp [signStarts] at hc

/-- Behind a sign no token starts with a sign, but for the minus sign. -/
theorem find?_behind_sign {fuel : Nat} {stack stack' : Stack Tree} {t : Terminal}
    {v : Tree (.term t)} (ht : t.isSign = true) (hf : feed growing.node fuel stack t v = .read stack')
    {c : Char} (hc : c ∈ signStarts) (text : List Char) :
    (readings (c :: text)).find? (fun r => stack'.state.admits r.1) = none := by
  obtain ⟨s, below, rfl, hm⟩ := feed_read hf
  rw [List.find?_eq_none]
  rintro ⟨kind, n⟩ hmem
  obtain ⟨hsign, hminus⟩ := isSign_of_mem_readings hc hmem
  simp [Stack.state, State.not_admits_behind_sign ht hm hsign hminus]

/-- A reading is as long as the first one, or is a sign with an equals sign behind it. -/
theorem readings_cases {kind : Terminal} {n : Nat} {text : List Char}
    (h : (kind, n) ∈ readings text) :
    (∃ k more, readings text = (k, n) :: more) ∨
      kind.isSign = true ∧ ∃ rest, text.drop n = '=' :: rest := by
  revert h
  fun_cases readings text with
  | case1 rest | case2 rest | case3 rest =>
    intro h
    simp only [List.mem_cons, Prod.mk.injEq, List.not_mem_nil, or_false] at h
    rcases h with ⟨rfl, rfl⟩ | ⟨rfl, rfl⟩
    · exact .inl ⟨_, _, rfl⟩
    · exact .inr ⟨rfl, rest, rfl⟩
  | case19 =>
    intro h
    simp only [List.mem_cons, Prod.mk.injEq, List.not_mem_nil, or_false] at h
    rcases h with ⟨rfl, rfl⟩ | ⟨rfl, rfl⟩ <;> exact .inl ⟨_, _, rfl⟩
  | case21 | case22 =>
    intro h
    cases h
  | _ =>
    intro h
    obtain ⟨rfl, rfl⟩ : kind = _ ∧ n = _ := by simpa using h
    exact .inl ⟨_, _, rfl⟩

end Token

/-- A sign behind a sign can only be the slash of a comment. -/
theorem Scans.sign_behind_sign {fuel bound : Nat} {d : Tree (.non .program)} {stack stack' : Stack Tree}
    {t : Terminal} {v : Tree (.term t)} {c : Char} {rest : List Char} {ls : List Lexeme}
    (ht : t.isSign = true) (hf : feed growing.node fuel stack t v = .read stack')
    (hc : c ∈ Token.signStarts) (h : Scans bound d stack' (c :: rest) ls) :
    c = '/' ∧ ∃ s ∈ (stretches (c :: rest)).head?, s.isComment = true := by
  generalize hx : c :: rest = x at h
  cases h with
  | done => cases hx
  | blank hblank =>
    cases hx
    have hall : Token.signStarts.all (fun e => !Token.isBlank e) = true := rfl
    simpa [hblank] using List.all_eq_true.1 hall c hc
  | line hcomment hr =>
    cases hx
    exact ⟨rfl, _, by rw [stretches_line hcomment hr]; rfl, rfl⟩
  | block hcomment =>
    cases hx
    exact ⟨rfl, _, by rw [stretches_block _ hcomment]; rfl, rfl⟩
  | token _ hfind =>
    subst hx
    rw [Token.find?_behind_sign ht hf hc] at hfind
    cases hfind

/-- A token that is read is as long as the first reading: the machine never takes the rest of a sign
that it has split. -/
theorem Scans.first_reading {bound n : Nat} {d : Tree (.non .program)} {stack stack' : Stack Tree}
    {text : List Char} {kind : Terminal} {ls : List Lexeme}
    (hfind : (Token.readings text).find? (fun r => stack.state.admits r.1) = some (kind, n))
    (hf : feed growing.node bound stack kind (.leaf kind (String.ofList (text.take n))) =
      .read stack')
    (h : Scans bound d stack' (text.drop n) ls) : ∃ k more, Token.readings text = (k, n) :: more := by
  rcases Token.readings_cases (List.mem_of_find?_eq_some hfind) with hfirst | ⟨hsign, rest, hrest⟩
  · exact hfirst
  · rw [hrest] at h
    exact absurd (sign_behind_sign hsign hf (by simp [Token.signStarts]) h).1 (by decide)

end Featherweight
