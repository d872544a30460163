import Featherweight.Proofs.Continued
import Featherweight.Proofs.Sessions
import Featherweight.Repl

/-!
# Featherweight.Proofs.Commands

Entries that are programs and are taken for commands all the same.

* `Repl.opensWithComment` : the first thing in a text is a comment.
* `Scans.comment_of_slash` : no other program has a slash in front.
* `command_of_program` : so these entries, and no others, never come to be evaluated.
-/

namespace Featherweight

/-! ## Trimming -/

namespace Text

variable {c : Char}

theorem trimRight_append_cons (front rest : List Char) (hc : isSpace c = false) :
    trimRight (front ++ c :: rest) = front ++ c :: trimRight rest := by
  have hreverse : (front ++ c :: rest).reverse = rest.reverse ++ c :: front.reverse := by simp
  rw [trimRight, trimRight, hreverse, List.dropWhile_append]
  cases h : rest.reverse.dropWhile isSpace with
  | nil => simp [hc]
  | cons e more => simp

theorem trim_append_cons {spaces : List Char} (hs : ∀ e ∈ spaces, isSpace e = true)
    (hc : isSpace c = false) (rest : List Char) :
    trim (spaces ++ c :: rest) = c :: trimRight rest := by
  have hleft : trimLeft (spaces ++ c :: rest) = c :: rest := by
    rw [trimLeft, List.dropWhile_append_of_pos hs, List.dropWhile_cons_of_neg (by simp [hc])]
  rw [trim, hleft]
  exact trimRight_append_cons [] rest hc

theorem exists_of_trim_eq_cons {text rest : List Char} (h : trim text = c :: rest) :
    ∃ spaces more, (∀ e ∈ spaces, isSpace e = true) ∧ isSpace c = false ∧
      text = spaces ++ c :: more := by
  have hspaces : ∀ e ∈ text.takeWhile isSpace, isSpace e = true :=
    fun e he => List.mem_takeWhile_imp he
  cases hleft : text.dropWhile isSpace with
  | nil =>
    rw [trim, trimLeft, hleft] at h
    cases h
  | cons e more =>
    have hhead := List.head?_dropWhile_not isSpace text
    rw [hleft] at hhead
    have he : isSpace e = false := by simpa using hhead
    have htext : text = text.takeWhile isSpace ++ e :: more := by
      rw [← hleft, List.takeWhile_append_dropWhile]
    rw [htext, trim_append_cons hspaces he] at h
    cases h
    exact ⟨text.takeWhile isSpace, more, hspaces, he, htext⟩

end Text

/-! ## Comments in front -/

namespace Repl

/-- The first thing in the text, blanks apart, is a comment. -/
def opensWithComment (text : List Char) : Bool :=
  let rest := text.dropWhile Token.isBlank
  ['/', '/'].isPrefixOf rest || ['/', '*'].isPrefixOf rest

theorem opensWithComment_iff {text : List Char} :
    opensWithComment text = true ↔ ∃ blanks sign rest, (∀ c ∈ blanks, Token.isBlank c = true) ∧
      (sign = '/' ∨ sign = '*') ∧ text = blanks ++ '/' :: sign :: rest := by
  rw [opensWithComment, Bool.or_eq_true, List.isPrefixOf_iff_prefix, List.isPrefixOf_iff_prefix]
  constructor
  · intro h
    obtain ⟨sign, hsign, rest, hrest⟩ : ∃ sign, (sign = '/' ∨ sign = '*') ∧
        ['/', sign] <+: text.dropWhile Token.isBlank := by
      rcases h with h | h
      · exact ⟨'/', .inl rfl, h⟩
      · exact ⟨'*', .inr rfl, h⟩
    refine ⟨text.takeWhile Token.isBlank, sign, rest, fun c hc => List.mem_takeWhile_imp hc, hsign, ?_⟩
    have hsplit := List.takeWhile_append_dropWhile (p := Token.isBlank) (l := text)
    rw [← hrest] at hsplit
    exact hsplit.symm
  · rintro ⟨blanks, sign, rest, hblanks, hsign, rfl⟩
    rw [List.dropWhile_append_of_pos hblanks, List.dropWhile_cons_of_neg (by decide)]
    rcases hsign with rfl | rfl
    · exact .inl ⟨rest, rfl⟩
    · exact .inr ⟨rest, rfl⟩

/-- A comment is taken for a command that nobody knows. -/
theorem Command.ofText?_comment {blanks rest : List Char} {sign : Char}
    (hblanks : ∀ c ∈ blanks, Token.isBlank c = true) (hsign : sign = '/' ∨ sign = '*') :
    ∃ name : String, ['/', sign] <+: name.toList ∧
      Command.ofText? (blanks ++ '/' :: sign :: rest) = some (.unknown name) := by
  have hspaces : ∀ c ∈ blanks, Text.isSpace c = true :=
    fun c hc => Token.isSpace_of_isBlank (hblanks c hc)
  have hspace : Text.isSpace sign = false := by
    rcases hsign with rfl | rfl <;> decide
  have htrim : Text.trim (blanks ++ '/' :: sign :: rest) = '/' :: sign :: Text.trimRight rest := by
    rw [Text.trim_append_cons hspaces (by decide)]
    exact congrArg _ (Text.trimRight_append_cons [] rest hspace)
  obtain ⟨word, hword⟩ : ∃ word, ('/' :: sign :: Text.trimRight rest).takeWhile
      (fun c => !Text.isSpace c) = '/' :: sign :: word := by
    rw [List.takeWhile_cons_of_pos (by decide), List.takeWhile_cons_of_pos (by simp [hspace])]
    exact ⟨_, rfl⟩
  -- The names of the commands have a letter where this one has the comment sign.
  have hother (second : Char) (more : List Char) (hne : sign ≠ second) :
      String.ofList ('/' :: sign :: word) ≠ String.ofList ('/' :: second :: more) := by
    intro heq
    have hlist := congrArg String.toList heq
    rw [String.toList_ofList, String.toList_ofList] at hlist
    cases hlist
    exact hne rfl
  refine ⟨String.ofList ('/' :: sign :: word), ⟨word, by rw [String.toList_ofList]; rfl⟩, ?_⟩
  simp only [Command.ofText?, htrim, hword]
  rw [if_neg (hother 'c' ['l', 'e', 'a', 'r'] _), if_neg (hother 'e' ['n', 'v'] _),
    if_neg (hother 'p' ['y', '-', 't', 'r', 'a', 'c', 'e', 'b', 'a', 'c', 'k'] _),
    if_neg (hother 'r' ['e', 's', 'e', 't'] _)]
  all_goals rcases hsign with rfl | rfl <;> decide

end Repl

/-- A slash in front of a program is the start of a comment, and all white space before it is
blank. -/
theorem Scans.comment_of_slash {bound : Nat} {d : Tree (.non .program)} {spaces rest : List Char}
    {ls : List Lexeme} (h : Scans bound d [] (spaces ++ '/' :: rest) ls)
    (hs : ∀ c ∈ spaces, Text.isSpace c = true) :
    (∀ c ∈ spaces, Token.isBlank c = true) ∧
      ∃ sign more, (sign = '/' ∨ sign = '*') ∧ rest = sign :: more := by
  induction spaces with
  | nil =>
    refine ⟨by simp, ?_⟩
    rw [List.nil_append] at h
    cases h with
    | blank hc => exact absurd hc (by decide)
    | line => exact ⟨'/', _, .inl rfl, rfl⟩
    | block => exact ⟨'*', _, .inr rfl, rfl⟩
    | token _ hfind =>
      -- The only reading is a division sign, and no program starts with one.
      cases hfind
  | cons c spaces ih =>
    obtain ⟨hc, hs⟩ := List.forall_mem_cons.1 hs
    have hne : c ≠ '/' := by
      rintro rfl
      exact absurd hc (by decide)
    generalize htext : c :: spaces ++ '/' :: rest = text at h
    cases h with
    | done => cases htext
    | blank hblank hrest =>
      cases htext
      obtain ⟨hblanks, hsign⟩ := ih hrest hs
      exact ⟨List.forall_mem_cons.2 ⟨hblank, hblanks⟩, hsign⟩
    | line => exact absurd (List.cons.inj htext).1 hne
    | block => exact absurd (List.cons.inj htext).1 hne
    | token _ hfind =>
      rw [← htext, List.cons_append, Token.readings_space _ hc] at hfind
      cases hfind

theorem exists_scans_of_parse {text : String} {e : Expr} (h : parse text = .ok e) :
    ∃ d ls, Scans (16 * (text.toList.length + 2)) d [] text.toList ls := by
  obtain ⟨tokens, htokens⟩ := parse_eq_ok.1 h
  obtain ⟨d, hscan, -⟩ := Parser.parseTokens_eq_ok htokens
  exact ⟨d, _, Parser.scan_growing_iff.1 ⟨tokens, hscan, rfl⟩⟩

namespace Repl

/-- A program with a slash in front opens with a comment, also if it lacks its last semicolon. -/
theorem opensWithComment_of_slash {text rest : List Char}
    (h : (∃ e, parse (String.ofList text) = .ok e) ∨
      ∃ e, parse (Session.completed (String.ofList text)) = .ok e)
    (hslash : Text.trim text = '/' :: rest) : opensWithComment text = true := by
  obtain ⟨spaces, more, hspaces, hc, rfl⟩ := Text.exists_of_trim_eq_cons hslash
  rw [opensWithComment_iff]
  rcases h with ⟨e, he⟩ | ⟨e, he⟩
  · obtain ⟨d, ls, hscans⟩ := exists_scans_of_parse he
    rw [String.toList_ofList] at hscans
    obtain ⟨hblanks, sign, behind, hsign, rfl⟩ := hscans.comment_of_slash hspaces
    exact ⟨spaces, sign, behind, hblanks, hsign, rfl⟩
  · obtain ⟨d, ls, hscans⟩ := exists_scans_of_parse he
    rw [Session.toList_completed, String.toList_ofList, Text.trimRight_append_cons _ _ hc,
      List.append_assoc, List.cons_append] at hscans
    obtain ⟨hblanks, sign, behind, hsign, hmore⟩ := hscans.comment_of_slash hspaces
    obtain ⟨tail, -, htail⟩ := Text.exists_trimRight more
    -- The comment sign is not of the line that was put behind the text.
    cases htrim : Text.trimRight more with
    | nil =>
      rw [htrim] at hmore
      cases hmore
      rcases hsign with hsign | hsign <;> exact absurd hsign (by decide)
    | cons c kept =>
      rw [htrim] at hmore htail
      cases hmore
      exact ⟨spaces, sign, kept ++ tail, hblanks, hsign, by rw [htail]; rfl⟩

/-- A text is a command exactly if it is trimmed to one that starts with a slash. -/
theorem Command.isSome_ofText? {text : List Char} :
    (Command.ofText? text).isSome = true ↔ ∃ rest, Text.trim text = '/' :: rest := by
  rw [Command.ofText?]
  split
  · rename_i rest htrim
    simp [htrim]
  · rename_i htrim
    simpa using htrim

end Repl

open Repl

/-- An entry that is a program, as it is or with a semicolon put behind it, is taken for a command
exactly if it opens with a comment. Then its first word is reported as an unknown command and nothing
else happens; any other such entry is evaluated, unless there is nothing in it. -/
theorem command_of_program (entry : List Char)
    (h : (∃ e, parse (String.ofList (normalize entry)) = .ok e) ∨
      ∃ e, parse (Session.completed (String.ofList (normalize entry))) = .ok e) :
    ((Command.ofText? (normalize entry)).isSome = true ↔ opensWithComment (normalize entry) = true) ∧
    ∀ s : Repl.State,
      (opensWithComment (normalize entry) = true → ∃ name : String,
        (['/', '/'] <+: name.toList ∨ ['/', '*'] <+: name.toList) ∧
        s.accept entry = .ok ({ s with buffer := [] },
          .message (Report.line ("Unknown command: " ++ name)))) ∧
      (opensWithComment (normalize entry) = false → s.accept entry =
        if (Text.trim (normalize entry)).isEmpty then .ok ({ s with buffer := [] }, .nothing)
        else State.program { s with buffer := [] } (String.ofList (normalize entry))) := by
  have hcommand {text : List Char} (hopens : opensWithComment text = true) :
      ∃ name : String, (['/', '/'] <+: name.toList ∨ ['/', '*'] <+: name.toList) ∧
        Command.ofText? text = some (.unknown name) := by
    obtain ⟨blanks, sign, rest, hblanks, hsign, rfl⟩ := opensWithComment_iff.1 hopens
    obtain ⟨name, hname, hof⟩ := Command.ofText?_comment hblanks hsign
    refine ⟨name, ?_, hof⟩
    rcases hsign with rfl | rfl
    · exact .inl hname
    · exact .inr hname
  have hiff : (Command.ofText? (normalize entry)).isSome = true ↔
      opensWithComment (normalize entry) = true := by
    constructor
    · intro hsome
      obtain ⟨rest, hslash⟩ := Command.isSome_ofText?.1 hsome
      exact opensWithComment_of_slash h hslash
    · intro hopens
      obtain ⟨name, -, hof⟩ := hcommand hopens
      simp [hof]
  refine ⟨hiff, fun s => ⟨fun hopens => ?_, fun hopens => ?_⟩⟩
  · obtain ⟨name, hname, hof⟩ := hcommand hopens
    obtain ⟨rest, hslash⟩ := Command.isSome_ofText?.1 (hiff.2 hopens)
    refine ⟨name, hname, ?_⟩
    simp [State.accept, hslash, hof, State.command]
  · have hnone : Command.ofText? (normalize entry) = none := by
      simpa [hopens] using hiff
    simp [State.accept, hnone]

/-- The entry lacks its semicolon, and the comment in it comes behind the first word. -/
theorem command_of_program_trailing :
    let entry := "\u00a0 6 // half\n / 2".toList
    (((parse (String.ofList (normalize entry))).isOk = false ∧
      (parse (Session.completed (String.ofList (normalize entry)))).isOk = true) ∧
      opensWithComment (normalize entry) = false) ∧
    (Command.ofText? (normalize entry)).isSome = false ∧
    ∀ s : Repl.State, s.accept entry =
      State.program { s with buffer := [] } (String.ofList (normalize entry)) := by
  intro entry
  have hread : (parse (Session.completed (String.ofList (normalize entry)))).isOk = true := by
    decide +kernel
  have hopens : opensWithComment (normalize entry) = false := by decide +kernel
  have hfilled : (Text.trim (normalize entry)).isEmpty = false := by decide +kernel
  obtain ⟨hiff, haccept⟩ := command_of_program entry (.inr (Session.exists_of_isOk hread))
  refine ⟨⟨⟨by decide +kernel, hread⟩, hopens⟩, by simpa [hopens] using hiff, fun s => ?_⟩
  rw [(haccept s).2 hopens, hfilled, if_neg Bool.false_ne_true]

/-- A line comment in front of a program makes it an unknown command. -/
theorem command_swallows_program :
    (Session.parseEntry (String.ofList (normalize "// note\n1;".toList))).isOk = true ∧
    Command.ofText? (normalize "// note\n1;".toList) = some (.unknown "//") ∧
    ((State.initial false).play [.submit "// note\n1;"]).1.map Prod.snd =
      [.message "Unknown command: //\n"] := by
  refine ⟨?_, ?_, ?_⟩ <;> decide +kernel

end Featherweight
