import Featherweight.Cli
import Featherweight.Proofs.Renumbered
import Featherweight.Proofs.SingleRoot

/-!
# Featherweight.Proofs.CommandLine

The command line writes what a program prints, as any other receiver of the printed values would get it.

* `Request.parse_flags` : what a dash and any number of result flags ask for.
* `execute_of_logs` : the answer to a program, from a run that sends its values to a sink.
* `answer_of_run` : both together, for a program that is read from standard input.
-/

namespace Featherweight

namespace Failure

/-- The text of an error, as it is reported. -/
def text : Failure → String
  | parse e => e.text
  | fault f => f.text

end Failure

namespace Report

/-- The lines that show values. -/
def lines (values : List Value) : String := String.join (values.map fun v => line v.display)

theorem printed_behind_of_logs {sink : Option SinkId} {source : Option String} {own : Option SinkId}
    {w : World} {values : List Value} (h : (World.fresh own source).Logs w (values.map (sink, ·)))
    (old : Store) : printed (w.behind old).log = lines values := by
  rw [printed_behind, h]
  simp [World.fresh, lines, Function.comp_def]

end Report

namespace Session

/-- What a text prints, it prints to the sink that it is run with. -/
theorem run_logs (text : String) (sink : SinkId) :
    ∃ printed : List Value, (World.fresh none none).Logs
      (run text 0 (some sink) (.fresh none none)).2 (printed.map (some sink, ·)) := by
  rw [run]
  cases hparse : parse text with
  | error err => exact ⟨[], rfl⟩
  | ok e =>
    have hstart := equip_rooted (fresh_rooted none none) (some sink) (some text)
    let ev : Evaluation := ⟨maxDepth, e, 0, equip 0 (some sink) (some text) (.fresh none none)⟩
    have hcaptures (g : FrameId) (hg : e.Captures g) : g < ev.world.store.size :=
      absurd hg (not_captures_of_parse hparse g)
    have hroot : ev.world.store[0]? = some (.fresh none (some sink) (some text)) := rfl
    rw [evalParsed_world]
    exact ev.logs_to_root hstart hstart.first hcaptures maxRounds hroot

/-- An evaluation has no errors of reading. -/
theorem evalParsed_eq_parse {parsed : Except ParseError Expr} {f : FrameId} {sink : Option SinkId}
    {source : String} {w : World} {err : ParseError} :
    (evalParsed parsed f sink source w).1 = .error (.parse err) ↔ parsed = .error err := by
  cases parsed with
  | error err' => simp [evalParsed]
  | ok e =>
    rw [evalParsed]
    split <;> simp

/-- A run without a sink does what a run with one does. -/
theorem run_without_sink (text : String) (sink : SinkId) :
    run text 0 none (.fresh none none) =
      ((run text 0 (some sink) (.fresh none none)).1.map (Value.shifted 0),
        (run text 0 (some sink) (.fresh none none)).2.behind #[]) := by
  have hobeyed : Discipline.written.Obeyed (World.fresh none none).store :=
    Discipline.written_empty.push_root none none
  have hworld : (World.fresh none none).behind #[] = .fresh none none :=
    congrArg (World.mk · []) (Store.behind_root #[] none none)
  have hbehind := evalParsed_behind #[]
    (fun e (he : parse text = .ok e) => Discipline.written_of_parse he _) hobeyed Nat.one_pos
    (some sink) text
  rw [hworld] at hbehind
  exact hbehind

end Session

namespace Cli

/-! ## Arguments -/

theorem Request.ofArgs_flags (o : Options) (n : Nat) (rest : List String) :
    ofArgs o (List.replicate n "--print-result" ++ rest) =
      ofArgs { o with printResult := o.printResult || decide (0 < n) } rest := by
  induction n generalizing o with
  | zero => simp
  | succ n ih =>
    rw [List.replicate_succ, List.cons_append, ofArgs, if_pos rfl, ih]
    simp

theorem Request.parse_flags (before after : Nat) :
    parse (List.replicate before "--print-result" ++ "-" :: List.replicate after "--print-result") =
      .perform ⟨decide (0 < before + after), false, some "-"⟩ := by
  have hdash (o : Options) (args : List String) (h : o.source = none) :
      ofArgs o ("-" :: args) = ofArgs { o with source := some "-" } args := by
    rw [ofArgs, if_neg (by decide), if_neg (by decide), if_neg (by decide), if_neg (by decide), h]
  rw [parse, ofArgs_flags, hdash _ _ rfl, ← List.append_nil (List.replicate after _), ofArgs_flags,
    ofArgs]
  simp [Nat.pos_iff_ne_zero]

theorem load_stdin {stdin : List Nat} {text : String} (hread : Text.Utf8.readText stdin = .ok text)
    (htext : text ≠ "") (printResult dumpTree traced : Bool) (found : Found) :
    load ⟨printResult, dumpTree, some "-"⟩ stdin found traced = .ok text := by
  have hpath : (Options.mk printResult dumpTree (some "-")).path? = none := rfl
  rw [load, hpath]
  dsimp only
  rw [loadStdin, hread]
  split
  · rename_i h
    cases h
  · rename_i h
    exact absurd (Except.ok.inj h) htext
  · rename_i h
    rw [Except.ok.inj h]

/-! ## Programs -/

/-- Without a sink, what is printed is written. -/
theorem execute_of_logs {text : String} {sink : SinkId} {values : List Value}
    (h : (World.fresh none none).Logs (Session.run text 0 (some sink) (.fresh none none)).2
      (values.map (some sink, ·))) (printResult traced : Bool) :
    (∀ v, (Session.run text 0 (some sink) (.fresh none none)).1 = .ok v →
      execute text printResult traced =
        .success (Report.lines values ++ if printResult then Report.line v.display else "")) ∧
    ∀ e, (Session.run text 0 (some sink) (.fresh none none)).1 = .error e →
      execute text printResult traced = failed (Report.lines values) traced e := by
  have hrun : Session.run text (World.empty.push (.fresh none none none)).1 none
      (World.empty.push (.fresh none none none)).2 = _ := Session.run_without_sink text sink
  unfold execute
  dsimp only
  constructor
  · intro v hv
    rw [hrun, hv]
    simp only [Except.map, Report.printed_behind_of_logs h, Value.display_shifted]
  · intro e he
    rw [hrun, he]
    simp only [Except.map, Report.printed_behind_of_logs h]

/-- An error that the language knows is reported behind the output, with its text in front. -/
theorem failed_of_reported {e : Failure} (he : ∀ err, e = .parse err → ∃ r, err = .refused r)
    (out : String) (traced : Bool) :
    (failed out traced e).out = out ∧ (failed out traced e).exit = .status 1 ∧
      ∃ rest, (failed out traced e).err = "Error: " ++ e.text ++ "\n" ++ rest := by
  cases e with
  | parse err =>
    obtain ⟨r, rfl⟩ := he err rfl
    exact ⟨rfl, rfl, _, String.append_assoc ..⟩
  | fault f => exact ⟨rfl, rfl, _, String.append_assoc ..⟩

theorem answer_flags {stdin : List Nat} {text : String} (hread : Text.Utf8.readText stdin = .ok text)
    (htext : text ≠ "") (before after : Nat) (find : Path → Found) (trace : Option String) :
    answer (List.replicate before "--print-result" ++ "-" :: List.replicate after "--print-result")
      stdin find trace = execute text (decide (0 < before + after)) (Settings.traced trace) := by
  rw [answer, Request.parse_flags]
  dsimp only
  rw [perform, load_stdin hread htext]
  rfl

/-- Take a text from standard input that is read as a program or refused. Run it in a fresh world, with
a sink for what it prints. Then the command line, given a dash and result flags, writes the values that
the sink got, each on a line, and behind them the result if there is a flag and a result. It ends well
exactly if the run does, and otherwise reports the error of the run. -/
theorem answer_of_run (text : String) (stdin : List Nat) (before after : Nat) (find : Path → Found)
    (trace : Option String) (sink : SinkId) (hread : Text.Utf8.readText stdin = .ok text)
    (htext : text ≠ "") (hparse : ∀ err, parse text = .error err → ∃ r, err = .refused r) :
    let args := List.replicate before "--print-result" ++ "-" :: List.replicate after "--print-result"
    let written := answer args stdin find trace
    let outcome := Session.run text 0 (some sink) (.fresh none none)
    ∃ printed : List Value,
      outcome.2.log = (printed.map (some sink, ·)).reverse ∧
      (∀ v, outcome.1 = .ok v → written = .success (Report.lines printed ++
        if 0 < before + after then Report.line v.display else "")) ∧
      ∀ e, outcome.1 = .error e →
        written.out = Report.lines printed ∧ written.exit = .status 1 ∧
        ∃ rest, written.err = "Error: " ++ e.text ++ "\n" ++ rest := by
  intro args written outcome
  have hwritten : written = execute text (decide (0 < before + after)) (Settings.traced trace) :=
    answer_flags hread htext before after find trace
  obtain ⟨printed, hprinted⟩ := Session.run_logs text sink
  obtain ⟨hok, herror⟩ :=
    execute_of_logs hprinted (decide (0 < before + after)) (Settings.traced trace)
  have hlog : outcome.2.log = (printed.map (some sink, ·)).reverse := by
    rw [hprinted]
    exact List.append_nil _
  refine ⟨printed, hlog, fun v hv => ?_, fun e he => ?_⟩
  · rw [hwritten, hok v hv]
    simp
  · rw [hwritten, herror e he]
    refine failed_of_reported (fun err herr => ?_) _ _
    rw [herr] at he
    exact hparse err (Session.evalParsed_eq_parse.1 he)

/-- Two values are printed before the error, and the flag stands on both sides of the dash. -/
theorem answer_of_run_failing :
    let text := "function f(n) \x7b print(n); \x7d f(7); print(1 == 1);\nf();"
    let stdin := text.toList.map Char.toNat
    let args := ["--print-result", "-", "--print-result"]
    (Text.Utf8.readText stdin = .ok text ∧ text ≠ "" ∧ (parse text).isOk = true) ∧
    (Session.run text 0 (some 3) (.fresh none none)).2.log.map (fun p => (p.1, p.2.display)) =
      [(some 3, "true"), (some 3, "7")] ∧
    ∀ find trace, (answer args stdin find trace).out = "7\ntrue\n" ∧
      (answer args stdin find trace).exit = .status 1 := by
  intro text stdin args
  have hread : Text.Utf8.readText stdin = .ok text := by decide +kernel
  have htext : text ≠ "" := by decide
  have hok : (parse text).isOk = true := by decide +kernel
  have hlog : (Session.run text 0 (some 3) (.fresh none none)).2.log.map
      (fun p => (p.1, p.2.display)) = [(some 3, "true"), (some 3, "7")] := by decide +kernel
  have hfails : (Session.run text 0 (some 3) (.fresh none none)).1.isOk = false := by decide +kernel
  refine ⟨⟨hread, htext, hok⟩, hlog, fun find trace => ?_⟩
  obtain ⟨printed, hprinted, -, herror⟩ := answer_of_run text stdin 1 1 find trace 3
    hread htext fun err herr => by rw [herr] at hok; cases hok
  have hdisplay : printed.map Value.display = ["7", "true"] := by
    have hvalues := congrArg (fun entries => (entries.map Prod.snd).reverse) hlog
    simpa [hprinted, Function.comp_def] using hvalues
  have hlines : Report.lines printed = "7\ntrue\n" := by
    have hmap : Report.lines printed = String.join ((printed.map Value.display).map Report.line) := by
      rw [Report.lines, List.map_map]
      rfl
    rw [hmap, hdisplay]
    decide
  cases hrun : (Session.run text 0 (some 3) (.fresh none none)).1 with
  | ok v =>
    rw [hrun] at hfails
    cases hfails
  | error e =>
    obtain ⟨hout, hexit, -⟩ := herror e hrun
    exact ⟨hout.trans hlines, hexit⟩

end Cli

end Featherweight
