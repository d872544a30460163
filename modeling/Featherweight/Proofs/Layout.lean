import Featherweight.Proofs.Derivation
import Featherweight.Text.Unicode
import Mathlib.Data.List.TakeWhile

/-!
# Featherweight.Proofs.Layout

How a text is made of tokens.

* `Lexeme.Spelt` : the text of a token is one that its kind allows.
* `Gap` : a stretch of text that is ignored, which is white space, a line comment or a closed block
  comment.
* `Laid text tokens` : the text consists of these tokens, in this order, and gaps.
-/

namespace Featherweight

/-- The text of a token is one that its kind allows. -/
def Lexeme.Spelt (l : Lexeme) : Prop :=
  match l.kind with
  | .eof => False
  | .int => l.text.toList ≠ [] ∧ ∀ c ∈ l.text.toList, c.isDigit = true
  | .name => ∃ c rest, l.text.toList = c :: rest ∧ Token.isNameStart c = true ∧
      ∀ d ∈ rest, Token.isNamePart d = true
  | .op o => l.text = o.symbol
  | .equal => l.text = "="
  | .comma => l.text = ","
  | .semicolon => l.text = ";"
  | .lpar => l.text = "("
  | .rpar => l.text = ")"
  | .lbrace => l.text = "\x7b"
  | .rbrace => l.text = "\x7d"
  | .keyword k => l.text = k.text

inductive Gap : List Char → Prop where
  | blanks {text : List Char} : text ≠ [] → (∀ c ∈ text, Token.isBlank c = true) → Gap text
  | line {comment : List Char} : '\n' ∉ comment → Gap ('/' :: '/' :: comment)
  -- The comment ends at the first place where it can.
  | block {comment : List Char} : ¬ ['*', '/'] <:+: comment ++ ['*'] →
      Gap ('/' :: '*' :: (comment ++ ['*', '/']))

inductive Laid : List Char → List Lexeme → Prop where
  | nil : Laid [] []
  | gap {gap rest : List Char} {ls : List Lexeme} : Gap gap → Laid rest ls → Laid (gap ++ rest) ls
  | token {l : Lexeme} {rest : List Char} {ls : List Lexeme} :
      l.Spelt → Laid rest ls → Laid (l.text.toList ++ rest) (l :: ls)

/-- The text ends here or goes on with white space. -/
def Apart (rest : List Char) : Prop := ∀ c ∈ rest.head?, Text.isSpace c = true

theorem Keyword.text_of_ofText? {word : String} {k : Keyword} (h : ofText? word = some k) :
    word = k.text := by
  have := List.find?_some h
  simpa [eq_comm] using this

namespace Token

/-- A comment is not closed early if it is not at its first character, nor behind it. -/
theorem unclosed_of_cons {c : Char} {comment : List Char} (hne : ∀ tail, c = '*' → comment ≠ '/' :: tail)
    (h : ¬ ['*', '/'] <:+: comment ++ ['*']) : ¬ ['*', '/'] <:+: (c :: comment) ++ ['*'] := by
  intro hinfix
  rcases List.infix_cons_iff.1 hinfix with ⟨tail, htail⟩ | hinfix
  · cases comment with
    | nil => simp at htail
    | cons d comment =>
      simp only [List.cons_append, List.append_eq, List.cons.injEq] at htail
      obtain ⟨rfl, rfl, -⟩ := htail
      exact hne comment rfl rfl
  · exact h hinfix

theorem commentEnd?_eq_some {n m : Nat} {text : List Char} (h : commentEnd? n text = some m) :
    ∃ comment rest, text = comment ++ '*' :: '/' :: rest ∧ m = n + comment.length + 2 ∧
      ¬ ['*', '/'] <:+: comment ++ ['*'] := by
  fun_induction commentEnd? n text with
  | case1 n rest =>
    cases h
    exact ⟨[], rest, rfl, rfl, by decide⟩
  | case2 n c rest hne ih =>
    obtain ⟨comment, rest', rfl, rfl, hfirst⟩ := ih h
    refine ⟨c :: comment, rest', rfl, by simp; omega, unclosed_of_cons ?_ hfirst⟩
    rintro tail hc rfl
    exact hne _ hc rfl
  | case3 => cases h

/-- A text in which a comment does not end can stand in one. -/
theorem unclosed_of_commentEnd? {n : Nat} {comment : List Char} (h : commentEnd? n comment = none) :
    ¬ ['*', '/'] <:+: comment ++ ['*'] := by
  fun_induction commentEnd? n comment with
  | case1 => cases h
  | case2 n c rest hne ih => exact unclosed_of_cons hne (ih h)
  | case3 => decide

theorem take_length_takeWhile (q : Char → Bool) (text : List Char) :
    text.take (text.takeWhile q).length = text.takeWhile q :=
  (List.prefix_iff_eq_take.1 (List.takeWhile_prefix q)).symm

theorem drop_length_takeWhile (q : Char → Bool) (text : List Char) :
    text.drop (text.takeWhile q).length = text.dropWhile q := by
  have h := List.take_append_drop (text.takeWhile q).length text
  rw [take_length_takeWhile] at h
  exact List.append_cancel_left (h.trans List.takeWhile_append_dropWhile.symm)

theorem isNamePart_of_isNameStart {c : Char} (h : isNameStart c = true) : isNamePart c = true := by
  simp [isNamePart, h]

theorem spelt_digits {c : Char} (rest : List Char) (h : c.isDigit = true) :
    Lexeme.Spelt ⟨.int, String.ofList ((c :: rest).takeWhile Char.isDigit)⟩ := by
  refine ⟨by simp [h], fun d hd => ?_⟩
  rw [String.toList_ofList] at hd
  exact List.mem_takeWhile_imp hd

theorem spelt_word {c : Char} (rest : List Char) (h : isNameStart c = true) :
    Lexeme.Spelt ⟨.name, String.ofList ((c :: rest).takeWhile isNamePart)⟩ := by
  refine ⟨c, rest.takeWhile isNamePart, ?_, h, fun d hd => List.mem_takeWhile_imp hd⟩
  rw [String.toList_ofList, List.takeWhile_cons_of_pos (isNamePart_of_isNameStart h)]

/-- A number is written as a token of digits. -/
theorem spelt_repr (n : Nat) : Lexeme.Spelt ⟨.int, n.repr⟩ := by
  show n.repr.toList ≠ [] ∧ ∀ c ∈ n.repr.toList, c.isDigit = true
  rw [Nat.repr, String.toList_ofList]
  exact ⟨Nat.toDigits_ne_nil, fun c hc => Nat.isDigit_of_mem_toDigits (by decide) (by decide) hc⟩

theorem digitsValue_repr (n : Nat) : digitsValue n.repr = n := by
  rw [digitsValue, Nat.repr, String.toList_ofList]
  exact Nat.ofDigitChars_ten_toDigits

theorem takeWhile_cons_length {q : Char → Bool} {c : Char} (rest : List Char) (h : q c = true) :
    0 < ((c :: rest).takeWhile q).length ∧
      ((c :: rest).takeWhile q).length ≤ (c :: rest).length := by
  constructor
  · rw [List.takeWhile_cons_of_pos h]
    exact Nat.succ_pos _
  · exact (List.takeWhile_prefix q).length_le

/-- Every reading takes a character or more, and its text is one that its kind allows. -/
theorem spelt_of_mem_readings {kind : Terminal} {n : Nat} {text : List Char}
    (h : (kind, n) ∈ readings text) :
    0 < n ∧ n ≤ text.length ∧ Lexeme.Spelt ⟨kind, String.ofList (text.take n)⟩ := by
  revert h
  fun_cases readings text with
  | case1 | case2 | case3 =>
    intro h
    simp only [List.mem_cons, Prod.mk.injEq, List.not_mem_nil, or_false] at h
    rcases h with ⟨rfl, rfl⟩ | ⟨rfl, rfl⟩ <;> exact ⟨by omega, by simp, rfl⟩
  | case18 c rest =>
    intro h
    rename_i hd
    obtain ⟨rfl, rfl⟩ : kind = .int ∧ n = _ := by simpa using h
    obtain ⟨hpos, hle⟩ := takeWhile_cons_length rest hd
    exact ⟨hpos, hle, by rw [take_length_takeWhile]; exact spelt_digits rest hd⟩
  | case19 c rest =>
    intro h
    rename_i hs word k hk
    obtain ⟨hpos, hle⟩ := takeWhile_cons_length rest (isNamePart_of_isNameStart hs)
    simp only [List.mem_cons, Prod.mk.injEq, List.not_mem_nil, or_false] at h
    rcases h with ⟨rfl, rfl⟩ | ⟨rfl, rfl⟩
    · refine ⟨hpos, hle, ?_⟩
      rw [take_length_takeWhile]
      exact Keyword.text_of_ofText? hk
    · exact ⟨hpos, hle, by rw [take_length_takeWhile]; exact spelt_word rest hs⟩
  | case20 c rest =>
    intro h
    rename_i hs word hk
    obtain ⟨rfl, rfl⟩ : kind = .name ∧ n = _ := by simpa using h
    obtain ⟨hpos, hle⟩ := takeWhile_cons_length rest (isNamePart_of_isNameStart hs)
    exact ⟨hpos, hle, by rw [take_length_takeWhile]; exact spelt_word rest hs⟩
  | case21 | case22 =>
    intro h
    cases h
  | _ =>
    intro h
    obtain ⟨rfl, rfl⟩ : kind = _ ∧ n = 1 := by simpa using h
    exact ⟨by omega, by simp, rfl⟩

/-! ## What comes after a token -/

theorem takeWhile_append_apart {q : Char → Bool} (hq : ∀ c, Text.isSpace c = true → q c = false)
    (text : List Char) {rest : List Char} (hr : Apart rest) :
    (text ++ rest).takeWhile q = text.takeWhile q := by
  induction text with
  | nil =>
    cases rest with
    | nil => rfl
    | cons c rest =>
      have hc : q c = false := hq c (hr c rfl)
      rw [List.nil_append, List.takeWhile_cons_of_neg (by simp [hc]), List.takeWhile_nil]
  | cons c text ih => cases hc : q c <;> simp [hc, ih]

theorem toNat_of_isNamePart {c : Char} (h : isNamePart c = true) :
    (48 ≤ c.toNat ∧ c.toNat ≤ 57) ∨ (65 ≤ c.toNat ∧ c.toNat ≤ 90) ∨
      (97 ≤ c.toNat ∧ c.toNat ≤ 122) ∨ c.toNat = 95 ∨ c.toNat = 36 := by
  simp only [isNamePart, isNameStart, Bool.or_eq_true, decide_eq_true_eq] at h
  rcases h with ((h | rfl) | rfl) | h
  · rcases Bool.or_eq_true_iff.1 h with h | h
    · exact .inr (.inl (of_decide_eq_true h))
    · obtain ⟨hlow, hhigh⟩ := Bool.and_eq_true_iff.1 h
      exact .inr (.inr (.inl ⟨of_decide_eq_true hlow, of_decide_eq_true hhigh⟩))
  · decide
  · decide
  · obtain ⟨hlow, hhigh⟩ := Bool.and_eq_true_iff.1 h
    exact .inl ⟨of_decide_eq_true hlow, of_decide_eq_true hhigh⟩

theorem isNamePart_of_isSpace {c : Char} (h : Text.isSpace c = true) : isNamePart c = false := by
  by_contra hc
  have hrange := toNat_of_isNamePart (Bool.not_eq_false _ ▸ hc)
  simp only [Text.isSpace, Bool.or_eq_true, Bool.and_eq_true, decide_eq_true_eq] at h
  omega

theorem isDigit_of_isSpace {c : Char} (h : Text.isSpace c = true) : c.isDigit = false := by
  have hpart := isNamePart_of_isSpace h
  simp only [isNamePart, Bool.or_eq_false_iff] at hpart
  exact hpart.2

theorem isSpace_of_isBlank {c : Char} (h : isBlank c = true) : Text.isSpace c = true := by
  simp only [isBlank, Bool.or_eq_true, decide_eq_true_eq] at h
  rcases h with (((rfl | rfl) | rfl) | rfl) | rfl <;> decide

theorem readings_digit {c : Char} (rest : List Char) (h : c.isDigit = true) :
    readings (c :: rest) = [(.int, ((c :: rest).takeWhile Char.isDigit).length)] := by
  generalize hx : c :: rest = x
  fun_cases readings x with
  | case18 => rfl
  | case19 | case20 | case21 =>
    cases hx
    contradiction
  | case22 => cases hx
  | _ =>
    cases hx
    exact absurd h (by decide)

theorem not_isDigit_of_isNameStart {c : Char} (h : isNameStart c = true) : c.isDigit = false := by
  by_contra hd
  rw [Bool.not_eq_false] at hd
  simp only [isNameStart, Bool.or_eq_true, decide_eq_true_eq] at h
  rcases h with (h | rfl) | rfl
  · change (decide (65 ≤ c.val ∧ c.val ≤ 90) || (decide (97 ≤ c.val) && decide (c.val ≤ 122))) =
      true at h
    change (decide (48 ≤ c.val) && decide (c.val ≤ 57)) = true at hd
    simp only [Bool.or_eq_true, Bool.and_eq_true, decide_eq_true_eq,
      UInt32.le_iff_toNat_le] at h hd
    simp at h hd
    omega
  · exact absurd hd (by decide)
  · exact absurd hd (by decide)

/-- The ways to read a word: as the keyword it spells, if there is one, or as a name. -/
def wordReadings (word : List Char) : List (Terminal × Nat) :=
  match Keyword.ofText? (String.ofList word) with
  | some k => [(.keyword k, word.length), (.name, word.length)]
  | none => [(.name, word.length)]

theorem readings_word {c : Char} (rest : List Char) (h : isNameStart c = true) :
    readings (c :: rest) = wordReadings ((c :: rest).takeWhile isNamePart) := by
  have hd := not_isDigit_of_isNameStart h
  generalize hx : c :: rest = x
  fun_cases readings x with
  | case18 =>
    cases hx
    simp_all
  | case19 =>
    rename_i word k hk
    simp only [wordReadings, word] at hk ⊢
    rw [hk]
  | case20 =>
    rename_i word hk
    simp only [wordReadings, word] at hk ⊢
    rw [hk]
  | case21 =>
    cases hx
    contradiction
  | case22 => cases hx
  | _ =>
    cases hx
    exact absurd h (by decide)

theorem ignored_of_isBlank {c : Char} (rest : List Char) (h : isBlank c = true) :
    ignored (c :: rest) = (rest.takeWhile isBlank).length + 1 := by
  generalize hx : c :: rest = x
  fun_cases ignored x with
  | case1 =>
    cases hx
    exact absurd h (by decide)
  | case2 =>
    cases hx
    exact absurd h (by decide)
  | case3 =>
    subst hx
    rw [List.takeWhile_cons_of_pos h, List.length_cons]

/-- A text that starts with neither a blank nor a slash starts with no gap. -/
theorem ignored_cons {c : Char} (rest : List Char) (hb : isBlank c = false) (hs : c ≠ '/') :
    ignored (c :: rest) = 0 := by
  generalize hx : c :: rest = x
  fun_cases ignored x with
  | case1 =>
    cases hx
    exact absurd rfl hs
  | case2 =>
    cases hx
    exact absurd rfl hs
  | case3 =>
    subst hx
    rw [List.takeWhile_cons_of_neg (by simp [hb])]
    rfl

theorem head_append_ne {text rest : List Char} {c : Char} (hr : Apart rest)
    (hc : Text.isSpace c = false) (hne : ∀ tail, text ≠ c :: tail) (tail : List Char) :
    text ++ rest ≠ c :: tail := by
  intro h
  cases text with
  | nil =>
    rw [List.nil_append] at h
    rw [h] at hr
    rw [hr c rfl] at hc
    cases hc
  | cons e text =>
    cases h
    exact hne _ rfl

/-- What a token is read as does not depend on what comes behind white space. -/
theorem readings_append {text rest : List Char} (hne : text ≠ []) (hr : Apart rest) :
    readings (text ++ rest) = readings text := by
  fun_cases readings text with
  | case4 x hx => exact readings.eq_4 _ (head_append_ne hr rfl hx)
  | case5 x hx => exact readings.eq_5 _ (head_append_ne hr rfl hx)
  | case6 x hx => exact readings.eq_6 _ (head_append_ne hr rfl hx)
  | case18 c x =>
    rename_i hd
    rw [List.cons_append, readings_digit _ hd, ← List.cons_append,
      takeWhile_append_apart (fun c => isDigit_of_isSpace) _ hr]
  | case19 c x =>
    rename_i hs word k hk
    rw [List.cons_append, readings_word _ hs, ← List.cons_append,
      takeWhile_append_apart (fun c => isNamePart_of_isSpace) _ hr, wordReadings]
    simp only [word] at hk
    rw [hk]
  | case20 c x =>
    rename_i hs word hk
    rw [List.cons_append, readings_word _ hs, ← List.cons_append,
      takeWhile_append_apart (fun c => isNamePart_of_isSpace) _ hr, wordReadings]
    simp only [word] at hk
    rw [hk]
  | case21 c x =>
    rw [List.cons_append, readings]
    all_goals simp_all
  | case22 => exact absurd rfl hne
  | _ => rfl

/-- Text that starts with no gap still starts with none, unless a block comment is open. -/
theorem ignored_append {text rest : List Char} (hne : text ≠ []) (hr : Apart rest)
    (hi : ignored text = 0) (hopen : ∀ tail, text ≠ '/' :: '*' :: tail) :
    ignored (text ++ rest) = 0 := by
  cases text with
  | nil => exact absurd rfl hne
  | cons c x =>
    have hb : isBlank c = false := by
      by_contra hb
      rw [ignored_of_isBlank x (by simpa using hb)] at hi
      cases hi
    by_cases hs : c = '/'
    · subst hs
      have hline : ∀ tail, x ≠ '/' :: tail := by
        rintro tail rfl
        rw [ignored] at hi
        omega
      have hblock : ∀ tail, x ≠ '*' :: tail := by
        rintro tail rfl
        exact hopen tail rfl
      rw [List.cons_append, ignored]
      · rw [List.takeWhile_cons_of_neg (by simp [hb])]
        rfl
      · intro tail h
        exact head_append_ne hr rfl hline tail (List.cons.inj h).2
      · intro tail h
        exact head_append_ne hr rfl hblock tail (List.cons.inj h).2
    · exact ignored_cons _ hb hs

end Token

end Featherweight
