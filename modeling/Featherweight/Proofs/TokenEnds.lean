import Featherweight.Proofs.Stretches

/-!
# Featherweight.Proofs.TokenEnds

Where a token ends, and what can stand behind it.

* `Token.Prolongs token c` : the character makes a longer token of the token, or a comment.
* `Token.readings_take_append` and `Scans.ignored_take_append` : what is behind a token may be
  exchanged, as long as no character comes to stand there that prolongs it.
* `Token.eq_int_of_next` : a word is never cut, and a number only by a name.
* `Scans.not_word_behind_int` : in a text that is read a number is not cut either.
-/

namespace Featherweight

/-! ## The character behind a token -/

namespace Token

/-- A character that makes a longer token of the one in front of it, or a comment. -/
def Prolongs (token : List Char) (c : Char) : Prop :=
  (∃ front e, token = front ++ [e] ∧ isNamePart e = true ∧ isNamePart c = true) ∨
    ((token = ['<'] ∨ token = ['>'] ∨ token = ['=']) ∧ c = '=') ∨
    (token = ['/'] ∧ (c = '/' ∨ c = '*'))

theorem takeWhile_append_next {q : Char → Bool} (hq : ∀ c, q c = true → isNamePart c = true)
    {c : Char} {rest next : List Char} (hc : q c = true)
    (hnext : ∀ e ∈ next.head?, e ∈ ((c :: rest).dropWhile q).head? ∨
      ¬ Prolongs ((c :: rest).takeWhile q) e) :
    ((c :: rest).takeWhile q ++ next).takeWhile q = (c :: rest).takeWhile q := by
  have hall : ∀ e ∈ (c :: rest).takeWhile q, q e = true := fun e he => List.mem_takeWhile_imp he
  suffices hstop : next.takeWhile q = [] by
    rw [List.takeWhile_append_of_pos hall, hstop, List.append_nil]
  cases next with
  | nil => rfl
  | cons e next =>
    apply List.takeWhile_cons_of_neg
    intro he
    rcases hnext e rfl with hhead | hprolongs
    · have hnot := List.head?_dropWhile_not q (c :: rest)
      rw [Option.mem_def.1 hhead] at hnot
      simp [he] at hnot
    · have hne : (c :: rest).takeWhile q ≠ [] := by simp [List.takeWhile_cons_of_pos hc]
      have hlast := List.dropLast_concat_getLast hne
      exact hprolongs (.inl ⟨_, _, hlast.symm, hq _ (hall _ (List.getLast_mem hne)), hq e he⟩)

theorem readings_word_append {c : Char} {rest next : List Char} (hs : isNameStart c = true)
    (hnext : ∀ e ∈ next.head?, e ∈ ((c :: rest).dropWhile isNamePart).head? ∨
      ¬ Prolongs ((c :: rest).takeWhile isNamePart) e) :
    readings ((c :: rest).takeWhile isNamePart ++ next) =
      wordReadings ((c :: rest).takeWhile isNamePart) := by
  have hpart := isNamePart_of_isNameStart hs
  have htake := takeWhile_append_next (fun _ he => he) hpart hnext
  rw [List.takeWhile_cons_of_pos hpart, List.cons_append] at htake ⊢
  rw [readings_word _ hs, htake]

/-- What a token is read as does not depend on what is behind it, as long as the next character does
not prolong it. -/
theorem readings_take_append {text next : List Char} {k : Terminal} {n : Nat}
    {more : List (Terminal × Nat)} (hread : readings text = (k, n) :: more)
    (hnext : ∀ c ∈ next.head?, c ∈ (text.drop n).head? ∨ ¬ Prolongs (text.take n) c) :
    readings (text.take n ++ next) = readings text := by
  have hequal {rest : List Char} {e : Char} (hrest : ∀ tail, rest ≠ '=' :: tail)
      (he : e = '<' ∨ e = '>' ∨ e = '=')
      (hnext : ∀ c ∈ next.head?, c ∈ rest.head? ∨ ¬ Prolongs [e] c) (tail : List Char) :
      next ≠ '=' :: tail := by
    rintro rfl
    rcases hnext '=' rfl with hhead | hprolongs
    · obtain ⟨tail, rfl⟩ := List.head?_eq_some_iff.1 (Option.mem_def.1 hhead)
      exact hrest tail rfl
    · exact hprolongs (.inr (.inl ⟨by simpa using he, rfl⟩))
  revert hread
  fun_cases readings text with
  | case4 rest hrest =>
    intro hread
    cases hread
    exact readings.eq_4 _ (hequal hrest (.inl rfl) hnext)
  | case5 rest hrest =>
    intro hread
    cases hread
    exact readings.eq_5 _ (hequal hrest (.inr (.inl rfl)) hnext)
  | case6 rest hrest =>
    intro hread
    cases hread
    exact readings.eq_6 _ (hequal hrest (.inr (.inr rfl)) hnext)
  | case18 c rest =>
    rename_i hd
    intro hread
    cases hread
    rw [take_length_takeWhile, drop_length_takeWhile] at hnext
    have htake := takeWhile_append_next (fun e he => by simp [isNamePart, he]) hd hnext
    rw [take_length_takeWhile]
    rw [List.takeWhile_cons_of_pos hd, List.cons_append] at htake ⊢
    rw [readings_digit _ hd, htake]
  | case19 c rest =>
    rename_i hs word kw hk
    intro hread
    cases hread
    rw [take_length_takeWhile, drop_length_takeWhile] at hnext
    simp only [word] at hk
    rw [take_length_takeWhile, readings_word_append hs hnext, wordReadings, hk]
  | case20 c rest =>
    rename_i hs word hk
    intro hread
    cases hread
    rw [take_length_takeWhile, drop_length_takeWhile] at hnext
    simp only [word] at hk
    rw [take_length_takeWhile, readings_word_append hs hnext, wordReadings, hk]
  | case21 | case22 =>
    intro hread
    cases hread
  | _ =>
    intro hread
    cases hread
    rfl

end Token

section Scans

variable {bound n : Nat} {d : Tree (.non .program)} {stack stack' : Stack Tree} {text : List Char}
  {kind : Terminal} {ls : List Lexeme}

/-- A token is still read where it was if no comment comes to start with it. -/
theorem Scans.ignored_take_append (hi : Token.ignored text = 0)
    (hfind : (Token.readings text).find? (fun r => stack.state.admits r.1) = some (kind, n))
    (hf : feed growing.node bound stack kind (.leaf kind (String.ofList (text.take n))) =
      .read stack')
    (h : Scans bound d stack' (text.drop n) ls) {next : List Char}
    (hnext : ∀ c ∈ next.head?, c ∈ (text.drop n).head? ∨
      (text.take n = ['/'] → ¬ Token.Prolongs ['/'] c)) :
    Token.ignored (text.take n ++ next) = 0 := by
  rcases slash_cases hi hfind hf h with hmem | ⟨rest, rfl, rfl, hline, hblock⟩
  · obtain ⟨hpos, -⟩ := Token.spelt_of_mem_readings (List.mem_of_find?_eq_some hfind)
    obtain ⟨m, rfl⟩ : ∃ m, n = m + 1 := ⟨n - 1, by omega⟩
    cases text with
    | nil => cases hfind
    | cons c rest =>
      simp only [List.take_succ_cons, List.mem_cons, not_or] at hmem
      refine Token.ignored_cons _ ?_ (Ne.symm hmem.1)
      by_contra hblank
      rw [Token.ignored_of_isBlank rest (by simpa using hblank)] at hi
      cases hi
  · have hne {c : Char} (hc : c = '/' ∨ c = '*') (hrest : ∀ tail, rest ≠ c :: tail)
        (tail : List Char) : next ≠ c :: tail := by
      rintro rfl
      rcases hnext c rfl with hhead | hprolongs
      · obtain ⟨tail, heq⟩ := List.head?_eq_some_iff.1 (Option.mem_def.1 hhead)
        exact hrest tail heq
      · exact hprolongs rfl (.inr (.inr ⟨rfl, hc⟩))
    show Token.ignored ('/' :: next) = 0
    rw [Token.ignored]
    · rfl
    · intro tail heq
      exact hne (.inl rfl) hline tail (List.cons.inj heq).2
    · intro tail heq
      exact hne (.inr rfl) hblock tail (List.cons.inj heq).2

/-- Where nothing is ignored a token is read. -/
theorem Scans.token_of_ignored (h : Scans bound d stack text ls) (hne : text ≠ [])
    (hi : Token.ignored text = 0) :
    ∃ kind n stack' more, ls = ⟨kind, String.ofList (text.take n)⟩ :: more ∧
      (Token.readings text).find? (fun r => stack.state.admits r.1) = some (kind, n) ∧
      feed growing.node bound stack kind (.leaf kind (String.ofList (text.take n))) =
        .read stack' ∧
      Scans bound d stack' (text.drop n) more := by
  cases h with
  | done => exact absurd rfl hne
  | blank hc =>
    rw [Token.ignored_of_isBlank _ hc] at hi
    cases hi
  | line hc hr =>
    rw [Token.ignored_line hc hr] at hi
    cases hi
  | block hc =>
    rw [Token.ignored_block _ hc] at hi
    cases hi
  | token _ hfind hf htail => exact ⟨_, _, _, _, rfl, hfind, hf, htail⟩

theorem Scans.of_blank {c : Char} (hc : Token.isBlank c = true)
    (h : Scans bound d stack (c :: text) ls) : Scans bound d stack text ls := by
  generalize hx : c :: text = x at h
  cases h with
  | done => cases hx
  | blank _ hrest =>
    cases hx
    exact hrest
  | line | block =>
    cases hx
    cases hc
  | token hi =>
    subst hx
    rw [Token.ignored_of_isBlank text hc] at hi
    cases hi

end Scans

/-! ## Words behind tokens -/

/-- Numbers, names and keywords. -/
def Terminal.isWord : Terminal → Bool
  | .int | .name | .keyword _ => true
  | _ => false

namespace Token

variable {text : List Char} {kind : Terminal} {n : Nat}

theorem mem_wordReadings {word : List Char} (h : (kind, n) ∈ wordReadings word) :
    kind.isWord = true ∧ n = word.length := by
  unfold wordReadings at h
  split at h
  · simp only [List.mem_cons, Prod.mk.injEq, List.not_mem_nil, or_false] at h
    rcases h with ⟨rfl, rfl⟩ | ⟨rfl, rfl⟩ <;> exact ⟨rfl, rfl⟩
  · cases List.mem_singleton.1 h
    exact ⟨rfl, rfl⟩

theorem isWord_of_mem_readings {c : Char} {rest : List Char} (hc : isNamePart c = true)
    (h : (kind, n) ∈ readings (c :: rest)) : kind.isWord = true := by
  rcases Bool.or_eq_true_iff.1 hc with hstart | hdigit
  · rw [readings_word rest hstart] at h
    exact (mem_wordReadings h).1
  · rw [readings_digit rest hdigit] at h
    cases List.mem_singleton.1 h
    rfl

/-- Only a number can end in front of a character that a word can have. -/
theorem eq_int_of_next {e c : Char} (h : (kind, n) ∈ readings text) (he : e ∈ text.take n)
    (hpart : isNamePart e = true) (hc : c ∈ (text.drop n).head?) (hcpart : isNamePart c = true) :
    kind = .int := by
  obtain ⟨hpos, -, hspelt⟩ := spelt_of_mem_readings h
  obtain ⟨m, rfl⟩ : ∃ m, n = m + 1 := ⟨n - 1, by omega⟩
  cases text with
  | nil => cases h
  | cons first rest =>
    have hfirst : isNamePart first = true := by
      rcases hspelt.word_or_sign with hword | hsign
      · exact hword first (by simp)
      · have hall : signChars.all (fun e => !isNamePart e) = true := rfl
        have hnot := List.all_eq_true.1 hall e (hsign e (by simpa using he))
        rw [hpart] at hnot
        cases hnot
    rcases Bool.or_eq_true_iff.1 hfirst with hstart | hdigit
    · rw [readings_word rest hstart] at h
      rw [(mem_wordReadings h).2, drop_length_takeWhile] at hc
      have hnot := List.head?_dropWhile_not isNamePart (first :: rest)
      rw [Option.mem_def.1 hc] at hnot
      simp [hcpart] at hnot
    · rw [readings_digit rest hdigit] at h
      exact congrArg Prod.fst (List.mem_singleton.1 h)

end Token

theorem State.eq_int_of_move? {s s' : State} (h : s.move? (.term .int) = some s') : s' = .int := by
  have hall := forall_of_all (q := fun s => s.moves.all fun m => m.1 ≠ .term .int || m.2 = .int)
    (by decide) s
  simpa using List.all_eq_true.1 hall _ (mem_moves_of_move? h)

/-- No word is read behind a number. -/
theorem Scans.not_word_behind_int {bound : Nat} {d : Tree (.non .program)} {stack stack' : Stack Tree}
    {v : Tree (.term .int)} {c : Char} {rest : List Char} {ls : List Lexeme}
    (hf : feed growing.node bound stack .int v = .read stack') (hc : Token.isNamePart c = true)
    (h : Scans bound d stack' (c :: rest) ls) : False := by
  obtain ⟨s, below, rfl, hm⟩ := feed_read hf
  have hblank : Token.isBlank c = false := by
    by_contra hblank
    rw [Token.isNamePart_of_isSpace (Token.isSpace_of_isBlank (by simpa using hblank))] at hc
    cases hc
  have hslash : c ≠ '/' := by
    rintro rfl
    cases hc
  obtain ⟨kind, n, -, -, -, hfind, -⟩ := h.token_of_ignored (by simp)
    (Token.ignored_cons rest hblank hslash)
  have hword := Token.isWord_of_mem_readings hc (List.mem_of_find?_eq_some hfind)
  have hall : (Terminal.all.all fun k => !k.isWord || !State.int.admits k) = true := by decide
  have hadmits := List.find?_some hfind
  simp only [Stack.state, State.eq_int_of_move? hm] at hadmits
  simpa [hword, hadmits] using List.all_eq_true.1 hall kind kind.mem_all

end Featherweight
