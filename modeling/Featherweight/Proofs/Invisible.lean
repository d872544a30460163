import Featherweight.Proofs.Failures
import Featherweight.Proofs.TokenEnds

/-!
# Featherweight.Proofs.Invisible

What deleting the invisible characters of a text does to the program in it.

* `Repl.joins` : deleting them makes one word of two, a comment sign of a slash and a comment, or ends
  a comment early.
* `Scans.next_normalize` : the character behind a token is the same as before, or one that was behind
  returns.
* `Scans.normalized` : where nothing is joined, the text is read as before.
* `Scans.not_runsTogether` : where the tokens are the same in a text without comments, nothing was
  joined.
* `normalize_keeps_program` : both together, for the programs that the parser accepts.
-/

namespace Featherweight

/-! ## What deleting can join -/

namespace Stretch

/-- Whether a stretch goes away with the invisible characters. -/
def isHidden : Stretch → Bool
  | .code c => Repl.isInvisible c
  | _ => false

/-- Whether two stretches are read as one once nothing is between them: two characters of words, or a
slash and a comment. -/
def meets : Stretch → Stretch → Bool
  | .code a, .code b => Token.isNamePart a && Token.isNamePart b
  | .code a, _ => a == '/'
  | _, _ => false

/-- Whether a block comment has an end inside it without its invisible characters. -/
def closesEarly : Stretch → Bool
  | .block comment => (Token.commentEnd? 0 (Repl.normalize comment)).isSome
  | _ => false

end Stretch

namespace Repl

/-- Whether two stretches meet once the hidden ones between them are gone. -/
def runsTogether : List Stretch → Bool
  | [] => false
  | a :: rest =>
    (rest.head?.any Stretch.isHidden && (rest.dropWhile Stretch.isHidden).head?.any a.meets) ||
      runsTogether rest

def joins (text : List Stretch) : Bool := runsTogether text || text.any Stretch.closesEarly

theorem isNamePart_of_isInvisible {c : Char} (h : isInvisible c = true) :
    Token.isNamePart c = false := by
  have hall : ['\u200b', '\u200c', '\u200d', '\ufeff', '\u00a0', '\r'].all
      (fun e => !Token.isNamePart e) = true := rfl
  simpa using List.all_eq_true.1 hall c (List.contains_iff_mem.1 h)

/-- The return is the one blank that is invisible. -/
theorem visible_of_isBlank {c : Char} (h : Token.isBlank c = true) (hc : c ≠ '\r') :
    isInvisible c = false := by
  have hblank : c = ' ' ∨ c = '\t' ∨ c = '\x0c' ∨ c = '\n' := by
    simpa [Token.isBlank, hc, or_assoc] using h
  rcases hblank with rfl | rfl | rfl | rfl <;> rfl

theorem not_isHidden_of_meets {a s : Stretch} (h : a.meets s = true) : s.isHidden = false := by
  cases s with
  | code c =>
    by_contra hc
    rw [Stretch.isHidden, Bool.not_eq_false] at hc
    cases a <;> simp [Stretch.meets, isNamePart_of_isInvisible hc] at h
  | line | block => rfl

theorem runsTogether_of_meets {a s : Stretch} {hidden : List Stretch} (front tail : List Stretch)
    (hne : hidden ≠ []) (hh : ∀ x ∈ hidden, x.isHidden = true) (hm : a.meets s = true) :
    runsTogether (front ++ a :: (hidden ++ s :: tail)) = true := by
  have hs := not_isHidden_of_meets hm
  induction front with
  | nil =>
    obtain ⟨x, hidden, rfl⟩ := List.exists_cons_of_ne_nil hne
    have hdrop : ((x :: hidden) ++ s :: tail).dropWhile Stretch.isHidden = s :: tail := by
      rw [List.dropWhile_append_of_pos hh, List.dropWhile_cons_of_neg (by simp [hs])]
    simp only [List.nil_append, runsTogether, hdrop]
    simp [hh x List.mem_cons_self, hm]
  | cons b front ih => simp [runsTogether, ih]

theorem runsTogether_append_right {a b : List Stretch} (h : runsTogether (a ++ b) = false) :
    runsTogether b = false := by
  induction a with
  | nil => exact h
  | cons s a ih =>
    simp only [List.cons_append, runsTogether, Bool.or_eq_false_iff] at h
    exact ih h.2

theorem joins_append_right {a b : List Stretch} (h : joins (a ++ b) = false) : joins b = false := by
  simp only [joins, Bool.or_eq_false_iff, List.any_append] at h ⊢
  exact ⟨runsTogether_append_right h.1, h.2.2⟩

theorem normalize_append (a b : List Char) : normalize (a ++ b) = normalize a ++ normalize b :=
  List.filter_append a b

theorem normalize_of_visible {text : List Char} (h : ∀ c ∈ text, isInvisible c = false) :
    normalize text = text := by
  rw [normalize, List.filter_eq_self]
  intro c hc
  simp [h c hc]

theorem normalize_visible {c : Char} (h : isInvisible c = false) (text : List Char) :
    normalize (c :: text) = c :: normalize text :=
  List.filter_cons_of_pos (by simp [h])

theorem normalize_invisible {c : Char} (h : isInvisible c = true) (text : List Char) :
    normalize (c :: text) = normalize text :=
  List.filter_cons_of_neg (by simp [h])

end Repl

open Repl

theorem Lexeme.Spelt.visible {l : Lexeme} (h : l.Spelt) :
    ∀ c ∈ l.text.toList, isInvisible c = false := by
  intro c hc
  by_contra hinv
  rw [Bool.not_eq_false] at hinv
  refine h.not_mem (isNamePart_of_isInvisible hinv) ?_ hc
  have hall : signChars.all (fun e => !isInvisible e) = true := rfl
  intro hmem
  simpa [hinv] using List.all_eq_true.1 hall c hmem

/-! ## Reading without the invisible characters -/

section Normalize

variable {bound n : Nat} {d : Tree (.non .program)} {stack stack' : Stack Tree} {text : List Char}
  {kind : Terminal} {ls : List Lexeme}

/-- A token stays where it is. -/
theorem Token.normalize_split {p : Terminal × Nat → Bool}
    (hfind : (Token.readings text).find? p = some (kind, n)) :
    Repl.normalize text = text.take n ++ Repl.normalize (text.drop n) ∧
      (Repl.normalize text).take n = text.take n ∧
      (Repl.normalize text).drop n = Repl.normalize (text.drop n) := by
  obtain ⟨-, hle, hspelt⟩ := Token.spelt_of_mem_readings (List.mem_of_find?_eq_some hfind)
  have hvisible : Repl.normalize (text.take n) = text.take n :=
    normalize_of_visible (by simpa using hspelt.visible)
  have hsplit : Repl.normalize text = text.take n ++ Repl.normalize (text.drop n) := by
    rw [← hvisible, ← normalize_append, List.take_append_drop]
  have hlength : (text.take n).length = n := List.length_take_of_le hle
  refine ⟨hsplit, ?_, ?_⟩
  · rw [hsplit, List.take_left' hlength]
  · rw [hsplit, List.drop_left' hlength]

/-- The first visible character of a text that is read was its first character, or behind returns. -/
theorem Scans.next_normalize (h : Scans bound d stack text ls) :
    ∀ c ∈ (Repl.normalize text).head?, c ∈ text.head? ∨ ∃ returns rest, text = returns ++ c :: rest ∧
      returns ≠ [] ∧ (∀ e ∈ returns, e = '\r') ∧ Scans bound d stack (c :: rest) ls := by
  intro c hc
  induction h with
  | done => cases hc
  | @blank _ e rest _ he hrest ih =>
    by_cases hreturn : e = '\r'
    · subst hreturn
      rw [normalize_invisible rfl] at hc
      right
      rcases ih hc with hhead | ⟨returns, rest', rfl, -, hall, hscans⟩
      · obtain ⟨rest', rfl⟩ := List.head?_eq_some_iff.1 (Option.mem_def.1 hhead)
        exact ⟨['\r'], rest', rfl, by simp, by simp, hrest⟩
      · exact ⟨'\r' :: returns, rest', rfl, by simp, by simpa using hall, hscans⟩
    · rw [normalize_visible (visible_of_isBlank he hreturn)] at hc
      exact .inl hc
  | line | block =>
    rw [normalize_visible rfl] at hc
    exact .inl hc
  | @token _ _ text _ n _ _ hfind =>
    obtain ⟨hpos, -⟩ := Token.spelt_of_mem_readings (List.mem_of_find?_eq_some hfind)
    obtain ⟨m, rfl⟩ : ∃ m, n = m + 1 := ⟨n - 1, by omega⟩
    rw [(Token.normalize_split hfind).1] at hc
    cases text with
    | nil => cases hfind
    | cons e rest => exact .inl hc

/-- Where a character comes to stand behind a token and prolongs it, two stretches have met. -/
theorem Scans.meets_of_prolongs (hi : Token.ignored text = 0)
    (hfind : (Token.readings text).find? (fun r => stack.state.admits r.1) = some (kind, n))
    (hf : feed growing.node bound stack kind (.leaf kind (String.ofList (text.take n))) =
      .read stack')
    (h : Scans bound d stack' (text.drop n) ls) {c : Char}
    (hc : c ∈ (Repl.normalize (text.drop n)).head?) (hp : Token.Prolongs (text.take n) c) :
    c ∈ (text.drop n).head? ∨ ∃ front a hidden s tail,
      stretches text = front ++ a :: (hidden ++ s :: tail) ∧ hidden ≠ [] ∧
      (∀ x ∈ hidden, x.isHidden = true) ∧ a.meets s = true ∧
      (text.take n = ['/'] → s.isComment = true) := by
  rcases h.next_normalize c hc with hhead | ⟨returns, rest, hrest, hne, hreturns, hscans⟩
  · exact .inl hhead
  right
  have hslash : '/' ∉ returns := by
    intro hmem
    cases hreturns _ hmem
  have hhidden : ∀ x ∈ returns.map Stretch.code, x.isHidden = true := by
    simp only [List.mem_map, forall_exists_index, and_imp, forall_apply_eq_imp_iff₂]
    intro e he
    rw [hreturns e he]
    rfl
  have hne' : returns.map Stretch.code ≠ [] := by simpa using hne
  rw [stretches_token hi hfind hf h, hrest, stretches_append_of_no_slash hslash]
  -- A sign is behind the sign that the token is.
  have hsign {e : Char} (he : e ∈ Token.signStarts) (htake : text.take n = [e])
      (hc : c ∈ Token.signStarts) :
      c = '/' ∧ ∃ s ∈ (stretches (c :: rest)).head?, s.isComment = true := by
    have hmem := List.mem_of_find?_eq_some hfind
    rw [← List.take_append_drop n text, htake] at hmem
    exact hscans.sign_behind_sign (Token.isSign_of_mem_readings he hmem).1 hf hc
  rcases hp with ⟨front, e, htake, he, hpart⟩ | ⟨htake, rfl⟩ | ⟨htake, hcomment⟩
  · have hcode : stretches (c :: rest) = .code c :: stretches rest := by
      have hne : c ≠ '/' := by
        rintro rfl
        cases hpart
      exact stretches_cons (fun _ heq => absurd heq hne) (fun _ heq => absurd heq hne)
    rw [htake, hcode, List.map_append, List.append_assoc]
    refine ⟨_, _, _, _, _, rfl, hne', hhidden, by simp [Stretch.meets, he, hpart], fun heq => ?_⟩
    obtain rfl : e = '/' := by
      have hlast := congrArg List.getLast? heq
      simpa using hlast
    cases he
  · rcases htake with htake | htake | htake <;>
      exact absurd (hsign (by simp [Token.signStarts]) htake (by simp [Token.signStarts])).1
        (by decide)
  · obtain ⟨rfl, s, hs, hcom⟩ := hsign (by simp [Token.signStarts]) htake (by
      rcases hcomment with rfl | rfl <;> simp [Token.signStarts])
    obtain ⟨tail, htail⟩ := List.head?_eq_some_iff.1 (Option.mem_def.1 hs)
    rw [htake, htail]
    refine ⟨[], _, _, s, tail, rfl, hne', hhidden, ?_, fun _ => hcom⟩
    cases s with
    | code => cases hcom
    | line | block => rfl

/-- Where nothing is joined, a text is read as before without its invisible characters. -/
theorem Scans.normalized (h : Scans bound d stack text ls) (hj : joins (stretches text) = false) :
    Scans bound d stack (Repl.normalize text) ls := by
  induction h with
  | done hf => exact .done hf
  | @blank _ c rest _ hc _ ih =>
    rw [stretches_blank hc] at hj
    have hrest := ih (joins_append_right (a := [_]) hj)
    by_cases hreturn : c = '\r'
    · rwa [normalize_invisible (by rw [hreturn]; rfl)]
    · rw [normalize_visible (visible_of_isBlank hc hreturn)]
      exact .blank hc hrest
  | @line _ comment rest _ hc hr _ ih =>
    rw [stretches_line hc hr] at hj
    rw [normalize_visible rfl, normalize_visible rfl, normalize_append]
    refine .line (fun hmem => hc (List.mem_filter.1 hmem).1) ?_
      (ih (joins_append_right (a := [_]) hj))
    cases rest with
    | nil => simp [Repl.normalize]
    | cons c rest =>
      obtain rfl := hr c rfl
      simp [normalize_visible (show isInvisible '\n' = false from rfl)]
  | @block _ comment rest _ hc _ ih =>
    rw [stretches_block rest hc] at hj
    have hearly : Token.commentEnd? 0 (Repl.normalize comment) = none := by
      simp only [joins, List.any_cons, Bool.or_eq_false_iff] at hj
      simpa [Stretch.closesEarly] using hj.2.1
    rw [normalize_visible rfl, normalize_visible rfl, normalize_append, normalize_visible rfl,
      normalize_visible rfl]
    exact .block (Token.unclosed_of_commentEnd? hearly) (ih (joins_append_right (a := [_]) hj))
  | @token stack stack' text kind n ls hi hfind hf htail ih =>
    have hnext : ∀ c ∈ (Repl.normalize (text.drop n)).head?, c ∈ (text.drop n).head? ∨
        ¬ Token.Prolongs (text.take n) c := by
      intro c hc
      by_cases hp : Token.Prolongs (text.take n) c
      · rcases meets_of_prolongs hi hfind hf htail hc hp with
          hhead | ⟨front, a, hidden, s, tail, hsplit, hne, hhidden, hmeets, -⟩
        · exact .inl hhead
        · rw [joins, hsplit, runsTogether_of_meets front tail hne hhidden hmeets] at hj
          cases hj
      · exact .inr hp
    obtain ⟨hsplit, htake, hdrop⟩ := Token.normalize_split hfind
    obtain ⟨k, more, hread⟩ := first_reading hfind hf htail
    have hstart : Token.ignored (Repl.normalize text) = 0 := by
      rw [hsplit]
      exact ignored_take_append hi hfind hf htail fun c hc =>
        (hnext c hc).imp_right fun hp heq => heq ▸ hp
    have hreadings : Token.readings (Repl.normalize text) = Token.readings text := by
      rw [hsplit, Token.readings_take_append hread hnext]
    rw [stretches_token hi hfind hf htail] at hj
    rw [← hreadings] at hfind
    rw [← htake] at hf ⊢
    refine .token hstart hfind hf ?_
    rw [hdrop]
    exact ih (joins_append_right hj)

/-! ## Words that are joined -/

/-- The first stretch that is not hidden, if it is code, is the first visible character. -/
theorem head?_normalize {c : Char}
    (h : ((stretches text).dropWhile Stretch.isHidden).head? = some (.code c)) :
    (Repl.normalize text).head? = some c := by
  induction text with
  | nil => cases h
  | cons e rest ih =>
    cases he : isInvisible e with
    | true =>
      have hslash : e ≠ '/' := by
        rintro rfl
        cases he
      have hhidden : (Stretch.code e).isHidden = true := he
      rw [stretches_cons (fun _ heq => absurd heq hslash) (fun _ heq => absurd heq hslash),
        List.dropWhile_cons_of_pos hhidden] at h
      rw [normalize_invisible he]
      exact ih h
    | false =>
      rw [normalize_visible he, List.head?_cons]
      obtain ⟨s, tail, hs, rfl | hcomment⟩ := stretches_head e rest
      · have hhidden : ¬ (Stretch.code e).isHidden = true := by simp [Stretch.isHidden, he]
        rw [hs, List.dropWhile_cons_of_neg hhidden] at h
        cases h
        rfl
      · cases s with
        | code => cases hcomment
        | line | block =>
          rw [hs] at h
          cases h

theorem runsTogether_cons {a : Stretch} {rest : List Stretch} (hrest : runsTogether rest = false)
    (hm : ∀ s ∈ (rest.dropWhile Stretch.isHidden).head?, a.meets s = false) :
    runsTogether (a :: rest) = false := by
  have hnext : (rest.dropWhile Stretch.isHidden).head?.any a.meets = false := by
    cases hhead : (rest.dropWhile Stretch.isHidden).head? with
    | none => rfl
    | some s => exact hm s hhead
  rw [runsTogether, hnext, hrest, Bool.and_false, Bool.or_false]

theorem runsTogether_code_append {token : List Char} {rest : List Stretch}
    (hv : ∀ c ∈ token, isInvisible c = false) (hrest : runsTogether rest = false)
    (hm : ∀ e ∈ token, ∀ s ∈ (rest.dropWhile Stretch.isHidden).head?,
      (Stretch.code e).meets s = false) :
    runsTogether (token.map .code ++ rest) = false := by
  induction token with
  | nil => exact hrest
  | cons e token ih =>
    rw [List.forall_mem_cons] at hv hm
    cases token with
    | nil => exact runsTogether_cons hrest hm.1
    | cons f token =>
      rw [List.map_cons, List.cons_append, runsTogether, ih hv.2 hm.2]
      simp [Stretch.isHidden, hv.2 f List.mem_cons_self]

/-- If a text without comments is read as the same tokens as without its invisible characters, nothing
was joined. -/
theorem Scans.not_runsTogether {d' : Tree (.non .program)} (h : Scans bound d stack text ls)
    (h' : Scans bound d' stack (Repl.normalize text) ls)
    (hcode : (stretches text).any Stretch.isComment = false) :
    runsTogether (stretches text) = false := by
  induction h with
  | done => rfl
  | @blank stack c rest ls hc _ ih =>
    rw [stretches_blank hc] at hcode ⊢
    have hrest : Scans bound d' stack (Repl.normalize rest) ls := by
      by_cases hreturn : c = '\r'
      · rwa [normalize_invisible (by rw [hreturn]; rfl)] at h'
      · rw [normalize_visible (visible_of_isBlank hc hreturn)] at h'
        exact h'.of_blank hc
    have hmeets (s : Stretch) : (Stretch.code c).meets s = false := by
      cases s with
      | code =>
        have hpart := Token.isNamePart_of_isSpace (Token.isSpace_of_isBlank hc)
        simp [Stretch.meets, hpart]
      | line | block =>
        have hslash : c ≠ '/' := by
          rintro rfl
          cases hc
        simpa [Stretch.meets] using hslash
    rw [List.any_cons, Bool.or_eq_false_iff] at hcode
    exact runsTogether_cons (ih hrest hcode.2) fun s _ => hmeets s
  | line hc hr =>
    rw [stretches_line hc hr] at hcode
    cases hcode
  | block hc =>
    rw [stretches_block _ hc] at hcode
    cases hcode
  | @token stack stack' text kind n ls hi hfind hf htail ih =>
    obtain ⟨hsplit, htake, hdrop⟩ := Token.normalize_split hfind
    obtain ⟨hpos, hle, hspelt⟩ := Token.spelt_of_mem_readings (List.mem_of_find?_eq_some hfind)
    have hstart : Token.ignored (Repl.normalize text) = 0 := by
      rw [hsplit]
      refine ignored_take_append hi hfind hf htail fun c hc => ?_
      by_cases hp : Token.Prolongs (text.take n) c
      · rcases meets_of_prolongs hi hfind hf htail hc hp with
          hhead | ⟨front, a, hidden, s, tail, hstretches, -, -, -, hs⟩
        · exact .inl hhead
        · right
          intro heq
          simp [hstretches, hs heq] at hcode
      · exact .inr fun heq => heq ▸ hp
    have hne : Repl.normalize text ≠ [] := by
      intro hnil
      have hlength := congrArg List.length htake
      rw [hnil, List.take_nil, List.length_take_of_le hle, List.length_nil] at hlength
      omega
    obtain ⟨kind', m, stack'', more, hls, hfind', hf', htail'⟩ := h'.token_of_ignored hne hstart
    -- It is the same token, so the machine goes on in the same state.
    obtain ⟨rfl, htext⟩ := Lexeme.mk.inj (List.cons.inj hls).1
    obtain rfl := (List.cons.inj hls).2
    obtain rfl : m = n := by
      have hle' := (Token.spelt_of_mem_readings (List.mem_of_find?_eq_some hfind')).2.1
      have hlength := congrArg (·.toList.length) htext
      simp only [String.toList_ofList, List.length_take_of_le hle,
        List.length_take_of_le hle'] at hlength
      exact hlength.symm
    rw [htake, hf] at hf'
    cases hf'
    rw [hdrop] at htail'
    rw [stretches_token hi hfind hf htail] at hcode ⊢
    rw [List.any_append, Bool.or_eq_false_iff] at hcode
    refine runsTogether_code_append (by simpa using hspelt.visible) (ih htail' hcode.2) ?_
    intro e he s hs
    by_contra hmeets
    cases s with
    | line | block =>
      have hmem := (List.dropWhile_suffix Stretch.isHidden).subset (List.mem_of_mem_head? hs)
      simpa [Stretch.isComment] using List.any_eq_false.1 hcode.2 _ hmem
    | code c =>
      obtain ⟨hpart, hcpart⟩ : Token.isNamePart e = true ∧ Token.isNamePart c = true := by
        simpa [Stretch.meets] using hmeets
      have hc := head?_normalize hs
      obtain rfl := Token.eq_int_of_next (List.mem_of_find?_eq_some hfind') (by rwa [htake]) hpart
        (by rwa [hdrop]) hcpart
      rcases htail.next_normalize c hc with hhead | ⟨_, rest, -, -, -, hscans⟩
      · obtain ⟨rest, hrest⟩ := List.head?_eq_some_iff.1 (Option.mem_def.1 hhead)
        rw [hrest] at htail
        exact htail.not_word_behind_int hf hcpart
      · exact hscans.not_word_behind_int hf hcpart

end Normalize

/-- Without its invisible characters an accepted text is the same program, unless this joins words,
makes a comment sign of a slash and a comment, or ends a comment early. In a text without comments
joining always makes other tokens. -/
theorem normalize_keeps_program (text : List Char) (e : Expr) (tokens : List Token)
    (h : Parser.parseTokens text = .ok (e, tokens)) :
    (joins (stretches text) = false → ∃ e' tokens',
      Parser.parseTokens (Repl.normalize text) = .ok (e', tokens') ∧ e'.bare = e.bare ∧
      tokens'.map Token.lexeme = tokens.map Token.lexeme) ∧
    ((stretches text).any Stretch.isComment = false → joins (stretches text) = true →
      ∀ e' tokens', Parser.parseTokens (Repl.normalize text) = .ok (e', tokens') →
        tokens'.map Token.lexeme ≠ tokens.map Token.lexeme) := by
  obtain ⟨d, hscan, hheight, hlit, hsense⟩ := Parser.parseTokens_eq_ok h
  have hscans := Parser.scan_growing_iff.1 ⟨tokens, hscan, rfl⟩
  constructor
  · intro hjoins
    obtain ⟨tokens', hscan', hlexemes⟩ := Parser.scan_growing_iff.2
      ((hscans.normalized hjoins).enough (by rw [Stack.weight_nil]; omega))
    have hlit' : tokens'.findSome? Parser.literalError? = none := by
      rw [Parser.literalErrors_eq_none, hlexemes]
      exact Parser.literalErrors_eq_none.1 hlit
    have hparse := Parser.parseTokens_of_scan hscan' hlit'
    rw [if_neg (by omega)] at hparse
    obtain ⟨e', hparse, hsense'⟩ := hparse
    exact ⟨e', tokens', hparse, hsense'.trans hsense.symm, hlexemes⟩
  · intro hcode hjoins e' tokens' hparse hlexemes
    obtain ⟨d', hscan', -⟩ := Parser.parseTokens_eq_ok hparse
    have hscans' := Parser.scan_growing_iff.1 ⟨tokens', hscan', hlexemes⟩
    have htogether := hscans.not_runsTogether (hscans'.mono (by
      have hlength := List.length_filter_le (fun c => !isInvisible c) text
      rw [← Repl.normalize] at hlength
      omega)) hcode
    have hearly : (stretches text).any Stretch.closesEarly = false := by
      rw [List.any_eq_false] at hcode ⊢
      intro s hs
      cases s with
      | block => simpa [Stretch.isComment] using hcode _ hs
      | code | line => simp [Stretch.closesEarly]
    rw [joins, htogether, hearly] at hjoins
    cases hjoins

/-- Returns at the ends of lines and invisible characters in comments do no harm. A return between
two words does. -/
theorem normalize_keeps_program_lines :
    let lines := "var x = 1;\r\n// a\u200b/\r\nx /\r 2; /*\r*\u00a0*/\r\n".toList
    let words := "var\rx = 1;".toList
    (joins (stretches lines) = false ∧ ∃ e tokens e' tokens',
      Parser.parseTokens lines = .ok (e, tokens) ∧
      Parser.parseTokens (Repl.normalize lines) = .ok (e', tokens') ∧ e'.bare = e.bare ∧
      tokens'.map Token.lexeme = tokens.map Token.lexeme) ∧
    (stretches words).any Stretch.isComment = false ∧ joins (stretches words) = true ∧
    ∃ e tokens, Parser.parseTokens words = .ok (e, tokens) ∧
      ∀ e' tokens', Parser.parseTokens (Repl.normalize words) = .ok (e', tokens') →
        tokens'.map Token.lexeme ≠ tokens.map Token.lexeme := by
  intro lines words
  have hlines : (Parser.parseTokens lines).isOk = true := by decide +kernel
  have hwords : (Parser.parseTokens words).isOk = true := by decide +kernel
  have hapart : joins (stretches lines) = false := by decide +kernel
  have hcode : (stretches words).any Stretch.isComment = false := by decide +kernel
  have hjoined : joins (stretches words) = true := by decide +kernel
  obtain ⟨⟨e, tokens⟩, hparse⟩ := Session.exists_of_isOk hlines
  obtain ⟨⟨f, more⟩, hparse'⟩ := Session.exists_of_isOk hwords
  obtain ⟨e', tokens', hsame⟩ := (normalize_keeps_program lines e tokens hparse).1 hapart
  exact ⟨⟨hapart, e, tokens, e', tokens', hparse, hsame⟩, hcode, hjoined, f, more, hparse',
    (normalize_keeps_program words f more hparse').2 hcode hjoined⟩

/-- Without the return between its first words a declaration is an assignment to another name, and
without the zero-width space in its comment a program is none. -/
theorem normalize_changes_program :
    (∃ e e', parse "var\rx = 1;" = .ok e ∧
      parse (String.ofList (Repl.normalize "var\rx = 1;".toList)) = .ok e' ∧
      e.bare = .declare "x" (.literal (.int 1) none) none ∧
      e'.bare = .assign "varx" (.literal (.int 1) none) none) ∧
    (parse "/* *\u200b/ */ 1;").isOk = true ∧
    (parse (String.ofList (Repl.normalize "/* *\u200b/ */ 1;".toList))).isOk = false := by
  have hapart : parse "var\rx = 1;" = .ok (.declare "x"
      (.literal (.int 1) (some ⟨some 1, some 9, some 1, some 10⟩))
      (some ⟨some 1, some 1, some 1, some 10⟩)) := by rfl
  have hjoined : parse "varx = 1;" = .ok (.assign "varx"
      (.literal (.int 1) (some ⟨some 1, some 8, some 1, some 9⟩))
      (some ⟨some 1, some 1, some 1, some 9⟩)) := by rfl
  have htext : String.ofList (Repl.normalize "var\rx = 1;".toList) = "varx = 1;" := by decide +kernel
  rw [← htext] at hjoined
  refine ⟨⟨_, _, hapart, hjoined, rfl, rfl⟩, ?_, ?_⟩ <;> decide +kernel

end Featherweight
