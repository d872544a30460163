import Featherweight.Proofs.CommandLine
import Featherweight.Proofs.Commands
import Featherweight.Proofs.Completeness
import Featherweight.Proofs.Items
import Featherweight.Proofs.Literals

/-!
# Featherweight.Proofs.Failures

The ways in which reading a text fails, and what becomes of them.

* `Reads text d` : the text is read as the derivation `d`.
* `Overlong ls n` : the first integer among the tokens that cannot be read is one that has too many
  digits.
* `parse_eq_longLiteral` : just then the text is neither read nor refused.
* `parse_failures` : the command line and the prompt report all other failures.
-/

namespace Featherweight

def Reads (text : String) (d : Tree (.non .program)) : Prop :=
  ∃ bound, Scans bound d [] text.toList d.yield

/-- The fuel does not matter once it is more than the machine can use for the text. -/
theorem Scans.enough {bound bound' : Nat} {d : Tree (.non .program)} {stack : Stack Tree}
    {text : List Char} {ls : List Lexeme} (h : Scans bound d stack text ls)
    (hb : stack.weight + 12 * text.length < bound') : Scans bound' d stack text ls := by
  have hfeed {stack : Stack Tree} {t : Terminal} {v : Tree (.term t)} {r : Reply Tree}
      (hw : stack.weight < bound') (hr : ∀ s, r ≠ .refused s)
      (hf : feed growing.node bound stack t v = r) : feed growing.node bound' stack t v = r := by
    have hmono : feed growing.node (max bound bound') stack t v = r :=
      (feed_mono (Nat.le_max_left _ _) (hf ▸ hr)).trans hf
    rw [← hmono]
    exact feed_enough hw (Nat.lt_of_lt_of_le hw (Nat.le_max_right _ _))
  induction h with
  | done hf => exact .done (hfeed (by omega) nofun hf)
  | blank hc _ ih =>
    rw [List.length_cons] at hb
    exact .blank hc (ih (by omega))
  | line hc hr _ ih =>
    simp only [List.length_cons, List.length_append] at hb
    exact .line hc hr (ih (by omega))
  | block hc _ ih =>
    simp only [List.length_cons, List.length_append] at hb
    exact .block hc (ih (by omega))
  | @token stack stack' text kind n ls hi hfind hf _ ih =>
    obtain ⟨hpos, hle, -⟩ := Token.spelt_of_mem_readings (List.mem_of_find?_eq_some hfind)
    have hweight := weight_of_feed_read hf
    refine .token hi hfind (hfeed (by omega) nofun hf) (ih ?_)
    rw [List.length_drop]
    omega

/-- What is read is what the parser reads. -/
theorem reads_iff {text : String} {d : Tree (.non .program)} :
    Reads text d ↔ ∃ tokens, Parser.scan growing text.toList = .ok (d, tokens) ∧
      tokens.map Token.lexeme = d.yield := by
  rw [Parser.scan_growing_iff]
  constructor
  · rintro ⟨bound, h⟩
    refine h.enough ?_
    rw [Stack.weight_nil]
    omega
  · intro h
    exact ⟨_, h⟩

/-! ## Literals that are too long -/

def Overlong (ls : List Lexeme) (n : Nat) : Prop :=
  ∃ before l after, ls = before ++ l :: after ∧ (∀ k ∈ before, k.Readable) ∧
    l.kind = .int ∧ l.text.length = n ∧ Parser.maxDigits < n

namespace Parser

theorem literalError?_eq_long {t : Token} {n : Nat} :
    literalError? t = some (.longLiteral n) ↔
      t.kind = .int ∧ t.text.length = n ∧ maxDigits < n := by
  unfold literalError?
  by_cases hk : t.kind = .int
  · simp only [hk, if_true, true_and]
    split
    · simp
      omega
    · split
      · simp
        omega
      · simp
        omega
  · simp [hk]

theorem literalErrors_eq_long {tokens : List Token} {n : Nat} :
    tokens.findSome? literalError? = some (.longLiteral n) ↔
      Overlong (tokens.map Token.lexeme) n := by
  rw [List.findSome?_eq_some_iff]
  constructor
  · rintro ⟨before, t, after, rfl, ht, hbefore⟩
    refine ⟨before.map Token.lexeme, t.lexeme, after.map Token.lexeme, by simp, ?_,
      literalError?_eq_long.1 ht⟩
    exact List.forall_mem_map.2 fun s hs => literalError?_eq_none.1 (hbefore s hs)
  · rintro ⟨before, l, after, htokens, hbefore, hl⟩
    obtain ⟨before, rest, rfl, rfl, hrest⟩ := List.map_eq_append_iff.1 htokens
    obtain ⟨t, after, rfl, rfl, rfl⟩ := List.map_eq_cons_iff.1 hrest
    refine ⟨before, t, after, rfl, literalError?_eq_long.2 hl, fun s hs => ?_⟩
    exact literalError?_eq_none.2 (hbefore _ (List.mem_map_of_mem hs))

theorem parseTokens_eq_long {text : List Char} {d : Tree (.non .program)} {tokens : List Token}
    (h : scan growing text = .ok (d, tokens)) (hdeep : parseTokens text ≠ .error .tooDeep)
    {n : Nat} :
    parseTokens text = .error (.longLiteral n) ↔ Overlong (tokens.map Token.lexeme) n := by
  rw [← literalErrors_eq_long]
  rcases parseTokens_cases h with ⟨-, hparse⟩ | ⟨e, hlit, hparse⟩ | ⟨-, hlit, e, hparse, -⟩
  · exact absurd hparse hdeep
  · simp [hparse, hlit]
  · simp [hparse, hlit]

/-- A text that is not read is refused. -/
theorem parseTokens_of_rejected {text : List Char} {r : Rejection}
    (h : scan growing text = .error r) : ∃ refusal, parseTokens text = .error (.refused refusal) := by
  have hs := scan_alike lowering_growing_alike text
  rw [h] at hs
  unfold parseTokens
  generalize scan lowering text = x at hs ⊢
  cases hs
  exact ⟨_, rfl⟩

end Parser

/-- A text that is not nested too deeply is given up on exactly if it is a program in which an integer
is too long. -/
theorem parse_eq_longLiteral {text : String} (hdeep : parse text ≠ .error .tooDeep) {n : Nat} :
    parse text = .error (.longLiteral n) ↔ ∃ d, Reads text d ∧ Overlong d.yield n := by
  rw [Ne, parse_eq_error] at hdeep
  rw [parse_eq_error]
  constructor
  · intro h
    cases hscan : Parser.scan growing text.toList with
    | error r =>
      obtain ⟨refusal, hrefused⟩ := Parser.parseTokens_of_rejected hscan
      rw [hrefused] at h
      cases h
    | ok result =>
      obtain ⟨d, tokens⟩ := result
      have hyield := Parser.yield_of_scan hscan
      refine ⟨d, reads_iff.2 ⟨tokens, hscan, hyield.symm⟩, ?_⟩
      rw [hyield]
      exact (Parser.parseTokens_eq_long hscan hdeep).1 h
  · rintro ⟨d, hreads, hlong⟩
    obtain ⟨tokens, hscan, hyield⟩ := reads_iff.1 hreads
    rw [← hyield] at hlong
    exact (Parser.parseTokens_eq_long hscan hdeep).2 hlong

theorem Reads.ne_tooDeep {text : String} {d : Tree (.non .program)} (h : Reads text d)
    (hd : d.height ≤ Parser.maxLevels) : parse text ≠ .error .tooDeep := by
  obtain ⟨tokens, hscan, -⟩ := reads_iff.1 h
  rw [Ne, parse_eq_error]
  rcases Parser.parseTokens_cases hscan with ⟨hlt, -⟩ | ⟨e, hlit, hparse⟩ | ⟨-, -, e, hparse, -⟩
  · omega
  · rw [hparse]
    rintro ⟨⟩
    obtain ⟨t, -, ht⟩ := List.exists_of_findSome?_eq_some hlit
    exact Parser.literalError?_ne_tooDeep t ht
  · rw [hparse]
    nofun

/-! ## The command line -/

namespace Cli

/-- The arguments and inputs ask for a program, which is the text. -/
def Asks (args : List String) (stdin : List Nat) (find : Path → Found) (trace : Option String)
    (text : String) : Prop :=
  ∃ o, Request.parse args = .perform o ∧
    load o stdin (o.found find) (Settings.traced trace) = .ok text

variable {args : List String} {stdin : List Nat} {find : Path → Found} {trace : Option String}
  {text : String}

theorem Asks.answer_eq (h : Asks args stdin find trace text) :
    (∃ printResult, answer args stdin find trace =
        execute text printResult (Settings.traced trace)) ∨
      answer args stdin find trace = dump text (Settings.traced trace) := by
  obtain ⟨o, hargs, hload⟩ := h
  rw [answer, hargs]
  dsimp only
  rw [perform, hload]
  dsimp only
  cases o.dumpTree with
  | true => exact .inr rfl
  | false => exact .inl ⟨o.printResult, rfl⟩

/-- Where nothing is read, nothing is run. -/
theorem Asks.answer_of_error (h : Asks args stdin find trace text) {err : ParseError}
    (herr : parse text = .error err) :
    answer args stdin find trace = failed "" (Settings.traced trace) (.parse err) := by
  rcases h.answer_eq with ⟨printResult, heq⟩ | heq
  · rw [heq]
    simp only [execute, Session.run, herr, Session.evalParsed]
    rfl
  · rw [heq, dump, herr]

theorem failed_eq_crash {out : String} {traced : Bool} {e : Failure} {err : ParseError} :
    (failed out traced e).exit = .crash err ↔ (∃ n, err = .longLiteral n) ∧ e = .parse err := by
  cases e with
  | fault f => simp [failed, Answer.failure]
  | parse err' => cases err' <;> grind [failed, Answer.failure]

/-- The run breaks off exactly if the text is given up on. -/
theorem Asks.crash_iff (h : Asks args stdin find trace text) {err : ParseError} :
    (answer args stdin find trace).exit = .crash err ↔
      (∃ n, err = .longLiteral n) ∧ parse text = .error err := by
  cases hparse : parse text with
  | error err' =>
    rw [h.answer_of_error hparse, failed_eq_crash]
    simp
  | ok e =>
    have hexit : (answer args stdin find trace).exit ≠ .crash err := by
      rcases h.answer_eq with ⟨printResult, heq⟩ | heq
      · rw [heq]
        intro hcrash
        unfold execute at hcrash
        dsimp only at hcrash
        split at hcrash
        · cases hcrash
        · rename_i hrun
          obtain ⟨-, rfl⟩ := failed_eq_crash.1 hcrash
          have herr : parse text = .error err :=
            Session.evalParsed_eq_parse.1 (congrArg Prod.fst hrun)
          rw [hparse] at herr
          cases herr
      · simp only [heq, dump, hparse]
        cases e.dump "  " with
        | none => nofun
        | some lines => nofun
    simp [hexit]

end Cli

/-! ## The prompt -/

theorem Session.parseEntry_eq_longLiteral {text : String} {n : Nat} :
    parseEntry text = .error (.longLiteral n) ↔ parse text = .error (.longLiteral n) ∨
      (∃ r, parse text = .error (.refused r)) ∧
        parse (completed text) = .error (.longLiteral n) := by
  unfold parseEntry
  cases parse text with
  | ok e => simp
  | error err =>
    cases err with
    | refused r =>
      cases parse (completed text) with
      | ok e => simp
      | error err' => cases err' <;> simp
    | longLiteral m => simp
    | tooDeep => simp

namespace Repl.State

theorem failure_eq_error {traced : Bool} {e : Failure} {err : ParseError} :
    failure traced e = .error err ↔ (∃ n, err = .longLiteral n) ∧ e = .parse err := by
  cases e with
  | fault f => simp [failure]
  | parse err' => cases err' <;> grind [failure]

theorem program_eq_error {s : State} {text : String} {err : ParseError} :
    s.program text = .error err ↔
      (∃ n, err = .longLiteral n) ∧ Session.parseEntry text = .error err := by
  have hparse (err : ParseError) :
      (Session.enter text s.globals ⟨s.world.store, []⟩).1 = .error (.parse err) ↔
        Session.parseEntry text = .error err := Session.evalParsed_eq_parse
  unfold State.program
  dsimp only
  generalize Session.enter text s.globals ⟨s.world.store, []⟩ = result at hparse
  obtain ⟨r, w⟩ := result
  rw [← hparse]
  cases r with
  | ok v => simp
  | error e =>
    have hfailure : failure s.traced e = .error err ↔ _ := failure_eq_error
    rw [Except.error.injEq, ← hfailure]
    dsimp only
    cases failure s.traced e <;> simp [bind, Except.bind]

/-- Nothing but a program ends the loop. -/
theorem accept_eq_error {s : State} {entry : List Char} {err : ParseError} :
    s.accept entry = .error err ↔ (Text.trim (normalize entry)).isEmpty = false ∧
      Command.ofText? (normalize entry) = none ∧ (∃ n, err = .longLiteral n) ∧
      Session.parseEntry (String.ofList (normalize entry)) = .error err := by
  unfold State.accept
  dsimp only
  cases (Text.trim (normalize entry)).isEmpty with
  | true => simp
  | false =>
    cases Command.ofText? (normalize entry) with
    | some c => simp
    | none => simp [program_eq_error]

end Repl.State

/-! ## An integer that is too long -/

/-- The derivation of an integer as a statement. -/
def literalProgram (digits : String) : Tree (.non .program) :=
  let literal := Tree.node .exprComparison (.cons (.node .comparisonSum (.cons (.node .sumProduct
    (.cons (.node .productUnary (.cons (.node .unaryCall (.cons (.node .callAtom
      (.cons (.node .atomInt (.cons (.leaf .int digits) .nil)) .nil)) .nil)) .nil)) .nil)) .nil))
    .nil)
  .node .programStmts (.cons (.node .stmtsOne (.cons (.node .stmtExpr (.cons literal
    (.cons (.leaf .semicolon ";") .nil))) .nil)) .nil)

theorem literalProgram_paired (digits : String) : (literalProgram digits).Paired := by
  simp [literalProgram, Tree.Paired, Forest.Paired, Forest.Nearest]

theorem yield_literalProgram (digits : String) :
    (literalProgram digits).yield = [⟨.int, digits⟩, ⟨.semicolon, ";"⟩] := by
  simp [literalProgram, Tree.yield, Forest.yield]

theorem reads_literalProgram {digits : List Char} (hne : digits ≠ [])
    (hd : ∀ c ∈ digits, c.isDigit = true) :
    Reads (String.ofList (digits ++ [' ', ';'])) (literalProgram (String.ofList digits)) := by
  have hplain : ∀ l ∈ (literalProgram (String.ofList digits)).yield, l.Plain := by
    rw [yield_literalProgram]
    simp only [List.forall_mem_cons, List.not_mem_nil, false_imp_iff, implies_true, and_true]
    refine ⟨⟨⟨?_, ?_⟩, nofun⟩, rfl, nofun⟩
    · simpa using hne
    · simpa using hd
  have htext : digits ++ [' ', ';'] =
      render (fun _ => [' ']) (literalProgram (String.ofList digits)).yield := by
    simp [yield_literalProgram, render]
  rw [reads_iff, String.toList_ofList, htext]
  exact Parser.scan_render (literalProgram_paired _) hplain fun _ => blanks_space

theorem parse_literal_of_long {digits : List Char} (hd : ∀ c ∈ digits, c.isDigit = true)
    (hlong : Parser.maxDigits < digits.length) :
    parse (String.ofList (digits ++ [' ', ';'])) = .error (.longLiteral digits.length) := by
  have hne : digits ≠ [] := by
    rintro rfl
    exact absurd hlong (Nat.not_lt_zero _)
  have hheight : (literalProgram (String.ofList digits)).height ≤ Parser.maxLevels := by
    simp [literalProgram, Tree.height, Forest.height, Production.isLevel, Parser.maxLevels_eq]
  have hreads := reads_literalProgram hne hd
  refine (parse_eq_longLiteral (hreads.ne_tooDeep hheight)).2 ⟨_, hreads, ?_⟩
  rw [yield_literalProgram]
  exact ⟨[], ⟨.int, String.ofList digits⟩, [⟨.semicolon, ";"⟩], rfl, List.forall_mem_nil _, rfl,
    String.length_ofList, hlong⟩

open Repl in
/-- Take a text that is not nested too deeply. It is read or refused, unless it is a program in which the
first integer that is out of range has more digits than can be converted. The command line reports a
refused text with the status of a failure, and breaks off only at such an integer; and a prompt entry
with that text ends the loop only if there is such an integer in it, as it is or with a semicolon put
behind it. -/
theorem parse_failures (text : String) (hdeep : parse text ≠ .error .tooDeep) :
    ((∃ e, parse text = .ok e) ∨ (∃ r, parse text = .error (.refused r)) ∨
      ∃ n, parse text = .error (.longLiteral n)) ∧
    (∀ n, parse text = .error (.longLiteral n) ↔ ∃ d, Reads text d ∧ Overlong d.yield n) ∧
    (∀ args stdin find trace, Cli.Asks args stdin find trace text →
      (∀ r, parse text = .error (.refused r) →
        (Cli.answer args stdin find trace).out = "" ∧
        (Cli.answer args stdin find trace).exit = .status 1 ∧
        ∃ rest, (Cli.answer args stdin find trace).err = "Error: " ++ r.text ++ "\n" ++ rest) ∧
      ∀ err, (Cli.answer args stdin find trace).exit = .crash err ↔
        ∃ n, err = .longLiteral n ∧ parse text = .error err) ∧
    ∀ (s : Repl.State) (entry : List Char), String.ofList (normalize entry) = text →
      ∀ err, s.accept entry = .error err ↔ (Text.trim (normalize entry)).isEmpty = false ∧
        Command.ofText? (normalize entry) = none ∧ ∃ n, err = .longLiteral n ∧
          (parse text = .error err ∨ (∃ r, parse text = .error (.refused r)) ∧
            parse (Session.completed text) = .error err) := by
  refine ⟨?_, fun n => ?_, fun args stdin find trace hasks => ⟨fun r hr => ?_, fun err => ?_⟩,
    fun s entry htext err => ?_⟩
  · cases hparse : parse text with
    | ok e => exact .inl ⟨e, rfl⟩
    | error err =>
      cases err with
      | refused r => exact .inr (.inl ⟨r, rfl⟩)
      | longLiteral n => exact .inr (.inr ⟨n, rfl⟩)
      | tooDeep => exact absurd hparse hdeep
  · exact parse_eq_longLiteral hdeep
  · rw [hasks.answer_of_error hr]
    exact Cli.failed_of_reported (fun err herr => ⟨r, (Failure.parse.inj herr).symm⟩) _ _
  · rw [hasks.crash_iff]
    simp [exists_and_right]
  · rw [State.accept_eq_error, htext]
    refine and_congr_right fun _ => and_congr_right fun _ => ?_
    constructor
    · rintro ⟨⟨n, rfl⟩, h⟩
      exact ⟨n, rfl, Session.parseEntry_eq_longLiteral.1 h⟩
    · rintro ⟨n, rfl, h⟩
      exact ⟨⟨n, rfl⟩, Session.parseEntry_eq_longLiteral.2 h⟩

/-- The text lacks a semicolon, so it is refused where its tree is asked for, and not at the prompt. -/
theorem parse_failures_refused :
    let text := "print(1)"
    let args := ["-", "--dump-ast"]
    let stdin := text.toList.map Char.toNat
    let r : Refusal := .misread .endOfText ⟨7, 1, 8⟩ "print(1)\n       ^\n"
    parse text = .error (.refused r) ∧
    (∀ find trace, Cli.Asks args stdin find trace text ∧
      (Cli.answer args stdin find trace).exit = .status 1 ∧
      ∃ rest, (Cli.answer args stdin find trace).err =
        "Error: Unexpected end of input (line 1, col 8)\n" ++ rest) ∧
    ∀ (s : Repl.State) (err : ParseError), s.accept text.toList ≠ .error err := by
  intro text args stdin r
  have hr : parse text = .error (.refused r) := by
    show parse "print(1)" = _
    rfl
  have hread : Text.Utf8.readText stdin = .ok text := by decide +kernel
  have hcompleted : (parse (Session.completed text)).isOk = true := by decide +kernel
  have hreport : "Error: " ++ r.text ++ "\n" = "Error: Unexpected end of input (line 1, col 8)\n" := by
    decide
  obtain ⟨-, -, hcli, hprompt⟩ := parse_failures text (by rw [hr]; nofun)
  refine ⟨hr, fun find trace => ?_, fun s err haccept => ?_⟩
  · have hasks : Cli.Asks args stdin find trace text :=
      ⟨⟨false, true, some "-"⟩, rfl, Cli.load_stdin hread (by decide) _ _ _ _⟩
    obtain ⟨hrefused, -⟩ := hcli _ _ _ _ hasks
    obtain ⟨-, hexit, herr⟩ := hrefused r hr
    rw [hreport] at herr
    exact ⟨hasks, hexit, herr⟩
  · have hends := (hprompt s text.toList (by decide) err).1 haccept
    obtain ⟨-, -, n, rfl, h | ⟨-, h⟩⟩ := hends
    · rw [hr] at h
      cases h
    · rw [h] at hcompleted
      cases hcompleted

/-- An integer of 4301 digits is neither read nor refused, and the command line breaks off. -/
theorem parse_of_long_literal :
    let text := String.ofList (List.replicate 4301 '9' ++ [' ', ';'])
    parse text = .error (.longLiteral 4301) ∧
    ∀ args stdin find trace, Cli.Asks args stdin find trace text →
      (Cli.answer args stdin find trace).exit = .crash (.longLiteral 4301) := by
  intro text
  have hd : ∀ c ∈ List.replicate 4301 '9', c.isDigit = true := by
    intro c hc
    rw [List.eq_of_mem_replicate hc]
    rfl
  have hparse := parse_literal_of_long hd (by rw [List.length_replicate]; decide)
  rw [List.length_replicate] at hparse
  exact ⟨hparse, fun args stdin find trace hasks => hasks.crash_iff.2 ⟨⟨4301, rfl⟩, hparse⟩⟩

end Featherweight
