import Featherweight.Proofs.Commands
import Featherweight.Proofs.Renumbered

/-!
# Featherweight.Proofs.Reset

After a reset the loop is like a new one, although no frame is ever taken away.

* `State.after?` : the state of the loop after a list of events, if it goes on then.
* `State.Beyond` : a state is another one, with older frames in front that it has nothing to do with.
* `State.Alike` : two states are the same one beyond older frames.
* `Alike.handle` and `Alike.play` : then the loop shows the same, for one event and for a list of them.
* `reset_isolates` : the state after a reset and the one at the start are alike.
-/

namespace Featherweight.Repl

open Discipline

theorem written_of_parseEntry {text : String} {e : Expr} (h : Session.parseEntry text = .ok e)
    (n : Nat) : written.Code n e := by
  obtain ⟨text', h⟩ := Session.parse_of_parseEntry h
  exact written_of_parse h n

namespace State

/-! ## Lists of events -/

/-- The state after a list of events, if the loop has not ended by then. -/
def after? (s : State) : List Event → Option State
  | [] => some s
  | e :: events =>
    match s.handle e with
    | .error _ => none
    | .ok (s', _) => if e = .endOfInput then none else after? s' events

/-- What the loop shows for a list of events, event by event. -/
def shows (s : State) (events : List Event) : List Shown := (s.play events).1.map Prod.snd

/-- The error that ends the loop in a list of events. -/
def crash? (s : State) (events : List Event) : Option ParseError := (s.play events).2

theorem play_append {s t : State} {before : List Event} (h : s.after? before = some t)
    (events : List Event) :
    s.shows (before ++ events) = s.shows before ++ t.shows events ∧
      s.crash? (before ++ events) = t.crash? events := by
  induction before generalizing s with
  | nil =>
    cases h
    exact ⟨rfl, rfl⟩
  | cons e before ih =>
    rw [after?] at h
    cases hs : s.handle e with
    | error err =>
      rw [hs] at h
      cases h
    | ok result =>
      obtain ⟨s', shown⟩ := result
      rw [hs] at h
      dsimp only at h
      split at h
      · cases h
      · rename_i hend
        obtain ⟨hshows, hcrash⟩ := ih h
        simp only [shows, crash?] at hshows hcrash
        simp only [shows, crash?, List.cons_append, play, hs, if_neg hend, List.map_cons]
        exact ⟨congrArg (shown :: ·) hshows, hcrash⟩

/-! ## States with older frames -/

structure Beyond (s : State) (old : Store) (u : State) : Prop where
  buffer : s.buffer = u.buffer
  traced : s.traced = u.traced
  store : s.world.store = u.world.store.behind old
  globals : s.globals = u.globals + old.size

/-- The global frame is there, and what is in the frames comes from programs. -/
structure Sound (u : State) : Prop where
  store : written.Obeyed u.world.store
  globals : u.globals < u.world.store.size

def Alike (s t : State) : Prop := ∃ u old old', u.Sound ∧ s.Beyond old u ∧ t.Beyond old' u

/-- Two loops do the same with an event: both end with the same error, or both show the same and are
alike afterwards. -/
inductive Matches : Except ParseError (State × Shown) → Except ParseError (State × Shown) → Prop where
  | crash (err : ParseError) : Matches (.error err) (.error err)
  | step {s t : State} (shown : Shown) : s.Alike t → Matches (.ok (s, shown)) (.ok (t, shown))

variable {s t u : State} {old : Store}

theorem initial_sound (traced : Bool) : (initial traced).Sound :=
  ⟨written_empty.push_root none (some ""), Nat.lt_succ_self 0⟩

/-- The loop as it starts has no older frames. -/
theorem initial_beyond (traced : Bool) : (initial traced).Beyond #[] (initial traced) :=
  ⟨rfl, rfl, (Store.behind_root #[] none (some "")).symm, rfl⟩

theorem Beyond.reset (h : s.Beyond old u) :
    (s.command .reset).1.Beyond old (u.command .reset).1 := by
  refine ⟨h.buffer, h.traced, ?_, ?_⟩
  · simp only [command, World.push, h.store, Store.behind_push]
    rfl
  · simp only [command, World.push, h.store, Store.size_behind]

theorem Sound.reset (h : u.Sound) : (u.command .reset).1.Sound := by
  refine ⟨h.store.push_root none (some ""), ?_⟩
  simp [command, World.push]

theorem Beyond.bindings (h : s.Beyond old u) (hu : u.Sound) : s.bindings = u.bindings := by
  have hnames : ((s.world.store[s.globals]?).map (·.names)).getD [] =
      ((u.world.store[u.globals]?).map (·.names)).getD [] := by
    rw [h.store, h.globals, Store.getElem?_behind]
    cases u.world.store[u.globals]? with
    | none => rfl
    | some a => simp [Frame.names, Frame.shifted]
  simp only [State.bindings, hnames]
  simp only [h.store, h.globals, Store.resolve_behind old _ _ hu.store.older, Value.display_shifted]

theorem Beyond.enter (h : s.Beyond old u) (hu : u.Sound) (text : String) :
    Session.enter text s.globals ⟨s.world.store, []⟩ =
      ((Session.enter text u.globals ⟨u.world.store, []⟩).1.map (Value.shifted old.size),
        (Session.enter text u.globals ⟨u.world.store, []⟩).2.behind old) := by
  have henter := Session.evalParsed_behind old (w := ⟨u.world.store, []⟩)
    (fun e (he : Session.parseEntry text = .ok e) => written_of_parseEntry he _) hu.store hu.globals
    none text
  rw [← h.globals] at henter
  rw [h.store]
  exact henter

theorem Sound.enter (hu : u.Sound) (text : String) :
    ({ u with world := (Session.enter text u.globals ⟨u.world.store, []⟩).2 } : State).Sound := by
  obtain ⟨hlead, -⟩ := Session.evalParsed_leads (w := ⟨u.world.store, []⟩)
    (fun e (he : Session.parseEntry text = .ok e) => written_of_parseEntry he _) hu.store hu.globals
    none text
  exact ⟨hlead.obeyed, Nat.lt_of_lt_of_le hu.globals hlead.size_le⟩

/-! ## Loops side by side -/

namespace Alike

theorem buffer (h : s.Alike t) : s.buffer = t.buffer := by
  obtain ⟨u, old, old', -, hs, ht⟩ := h
  exact hs.buffer.trans ht.buffer.symm

theorem traced (h : s.Alike t) : s.traced = t.traced := by
  obtain ⟨u, old, old', -, hs, ht⟩ := h
  exact hs.traced.trans ht.traced.symm

theorem bindings (h : s.Alike t) : s.bindings = t.bindings := by
  obtain ⟨u, old, old', hu, hs, ht⟩ := h
  exact (hs.bindings hu).trans (ht.bindings hu).symm

theorem withBuffer (h : s.Alike t) (pending : List Char) :
    Alike { s with buffer := pending } { t with buffer := pending } := by
  obtain ⟨u, old, old', hu, hs, ht⟩ := h
  exact ⟨{ u with buffer := pending }, old, old', ⟨hu.store, hu.globals⟩,
    ⟨rfl, hs.traced, hs.store, hs.globals⟩, ⟨rfl, ht.traced, ht.store, ht.globals⟩⟩

theorem setTraced (h : s.Alike t) (on : Bool) :
    Matches (.ok (s.setTraced on)) (.ok (t.setTraced on)) := by
  obtain ⟨u, old, old', hu, hs, ht⟩ := h
  exact .step _ ⟨{ u with traced := on }, old, old', ⟨hu.store, hu.globals⟩,
    ⟨hs.buffer, rfl, hs.store, hs.globals⟩, ⟨ht.buffer, rfl, ht.store, ht.globals⟩⟩

theorem program (h : s.Alike t) (text : String) : Matches (s.program text) (t.program text) := by
  have htraced := h.traced
  obtain ⟨u, old, old', hu, hs, ht⟩ := h
  have hsound := hu.enter text
  unfold State.program
  dsimp only
  rw [hs.enter hu, ht.enter hu]
  generalize Session.enter text u.globals ⟨u.world.store, []⟩ = result at hsound
  obtain ⟨r, w⟩ := result
  have halike : Alike { s with world := w.behind old } { t with world := w.behind old' } :=
    ⟨{ u with world := w }, old, old', hsound, ⟨hs.buffer, hs.traced, rfl, hs.globals⟩,
      ⟨ht.buffer, ht.traced, rfl, ht.globals⟩⟩
  cases r with
  | ok v =>
    simp only [Except.map, Report.printed_behind]
    cases v <;> exact .step _ halike
  | error e =>
    have hreport : failure s.traced e = failure t.traced e := by rw [htraced]
    simp only [Except.map, Report.printed_behind, hreport]
    cases failure t.traced e with
    | error err => exact .crash err
    | ok report => exact .step _ halike

theorem command (h : s.Alike t) (c : Command) :
    Matches (.ok (s.command c)) (.ok (t.command c)) := by
  cases c with
  | clear => exact .step _ h
  | env =>
    simp only [State.command, h.bindings]
    cases t.bindings <;> exact .step _ h
  | trace on =>
    cases on with
    | none =>
      simp only [State.command, h.traced]
      exact h.setTraced _
    | some on => exact h.setTraced on
  | traceUsage => exact .step _ h
  | reset =>
    obtain ⟨u, old, old', hu, hs, ht⟩ := h
    exact .step _ ⟨_, old, old', hu.reset, hs.reset, ht.reset⟩
  | unknown name => exact .step _ h

theorem accept (h : s.Alike t) (entry : List Char) : Matches (s.accept entry) (t.accept entry) := by
  unfold State.accept
  dsimp only
  split
  · exact .step _ (h.withBuffer [])
  · cases Command.ofText? (normalize entry) with
    | some c => exact (h.withBuffer []).command c
    | none => exact (h.withBuffer []).program _

/-- One event. -/
theorem handle (h : s.Alike t) (e : Event) : Matches (s.handle e) (t.handle e) := by
  cases e with
  | enter text =>
    simp only [State.handle, h.buffer]
    split
    · exact h.accept _
    · exact .step _ (h.withBuffer _)
  | submit text =>
    simp only [State.handle, h.buffer]
    exact h.accept _
  | interrupt => exact .step _ (h.withBuffer [])
  | endOfInput => exact .step _ h

/-- Any number of events. -/
theorem play (h : s.Alike t) (events : List Event) :
    s.shows events = t.shows events ∧ s.crash? events = t.crash? events := by
  induction events generalizing s t with
  | nil => exact ⟨rfl, rfl⟩
  | cons e events ih =>
    have hmatches := h.handle e
    simp only [shows, crash?, State.play]
    generalize s.handle e = r at hmatches
    generalize t.handle e = r' at hmatches
    cases hmatches with
    | crash err => exact ⟨rfl, rfl⟩
    | step shown halike =>
      dsimp only
      split
      · exact ⟨rfl, rfl⟩
      · obtain ⟨hshows, hcrash⟩ := ih halike
        exact ⟨congrArg (shown :: ·) hshows, hcrash⟩

end Alike

/-- To the state after a reset, all frames that there were are older ones. -/
theorem reset_alike (s : State) (h : s.buffer = []) :
    (s.command .reset).1.Alike (initial s.traced) := by
  have hbeyond : (s.command .reset).1.Beyond s.world.store (initial s.traced) := by
    refine ⟨h, rfl, (Store.behind_root s.world.store none (some "")).symm, ?_⟩
    simp [command, initial, World.push, World.empty]
  exact ⟨initial s.traced, s.world.store, #[], initial_sound _, hbeyond, initial_beyond _⟩

/-- With the event the loop accepts an entry that is the reset command. -/
def Resets (s : State) (e : Event) : Prop :=
  ∃ text : String, (e = .submit text ∨ e = .enter text ∧ accepts (s.buffer ++ text.toList) = true) ∧
    Command.ofText? (normalize (s.buffer ++ text.toList)) = some .reset

theorem Resets.handle {e : Event} (h : s.Resets e) :
    s.handle e = .ok (({ s with buffer := [] } : State).command .reset) := by
  obtain ⟨text, he, hreset⟩ := h
  have hslash : ∃ rest, Text.trim (normalize (s.buffer ++ text.toList)) = '/' :: rest := by
    rw [← Command.isSome_ofText?, hreset]
    rfl
  obtain ⟨rest, hslash⟩ := hslash
  have haccept : s.accept (s.buffer ++ text.toList) =
      .ok (({ s with buffer := [] } : State).command .reset) := by
    simp only [accept, hslash, hreset, List.isEmpty_cons, Bool.false_eq_true, if_false]
  rcases he with rfl | ⟨rfl, haccepts⟩
  · exact haccept
  · rw [State.handle, if_pos haccepts, haccept]

/-- The entry is answered with one line. -/
theorem Resets.play {e : Event} (h : s.Resets e) (events : List Event) :
    let s' := (({ s with buffer := [] } : State).command .reset).1
    s.shows (e :: events) = .output (Report.line "Environment reset.") :: s'.shows events ∧
      s.crash? (e :: events) = s'.crash? events := by
  have hend : e ≠ .endOfInput := by
    rintro rfl
    obtain ⟨text, he | ⟨he, -⟩, -⟩ := h <;> cases he
  constructor
  · simp only [shows, State.play, h.handle, if_neg hend, List.map_cons]
    rfl
  · simp only [crash?, State.play, h.handle, if_neg hend]

end State

/-- Whatever went on before, an entry with the reset command is answered with one line, and from then
on the loop shows for each event what a new loop would show that starts with the call stack switch as it
is now, and it ends with an error exactly if the new loop ends with the same one. -/
theorem reset_isolates (traced : Bool) (before : List Event) (s : State) (e : Event)
    (hbefore : (State.initial traced).after? before = some s) (he : s.Resets e)
    (events : List Event) :
    (State.initial traced).shows (before ++ e :: events) =
      (State.initial traced).shows before ++
        .output (Report.line "Environment reset.") :: (State.initial s.traced).shows events ∧
    (State.initial traced).crash? (before ++ e :: events) =
      (State.initial s.traced).crash? events := by
  obtain ⟨hshows, hcrash⟩ := State.play_append hbefore (e :: events)
  obtain ⟨hstep, hstep'⟩ := he.play events
  obtain ⟨hlater, hlater'⟩ := (State.reset_alike { s with buffer := [] } rfl).play events
  rw [hshows, hcrash, hstep, hstep', hlater, hlater']
  exact ⟨rfl, rfl⟩

/-- The entries before the reset leave bindings, a closure over them, an error and the call stack
switch, of which only the switch is still seen. -/
theorem reset_isolates_closure :
    let before : List Event := [.submit "var n = 3; var next = function() \x7b n = n + 1; \x7d;",
      .enter "next();", .enter "/py-traceback on", .enter "n + next"]
    let events : List Event := [.enter "/env", .enter "n", .enter "next()"]
    let shown : List Shown := [.output "Environment reset.\n", .output "(no bindings)\n", .nothing,
      .message ("Error: function call expects a function; got null (line 1, col 1)\n" ++
        "\nPython traceback:\n")]
    (((State.initial false).after? before).map fun s => (s.buffer, s.traced)) = some ([], true) ∧
    (State.initial false).shows (before ++ .enter " /reset" :: events) =
      (State.initial false).shows before ++ shown := by
  intro before events shown
  have hstate : (((State.initial false).after? before).map fun s => (s.buffer, s.traced)) =
      some ([], true) := by decide +kernel
  obtain ⟨s, hs, hboth⟩ := Option.map_eq_some_iff.1 hstate
  obtain ⟨hbuffer, htraced⟩ := Prod.mk.inj hboth
  have hreset : s.Resets (.enter " /reset") := by
    refine ⟨" /reset", .inr ⟨rfl, ?_⟩, ?_⟩
    · rw [hbuffer]
      decide +kernel
    · rw [hbuffer]
      decide +kernel
  have hfresh : .output (Report.line "Environment reset.") :: (State.initial true).shows events =
      shown := by decide +kernel
  obtain ⟨hshows, -⟩ := reset_isolates false before s _ hs hreset events
  exact ⟨hstate, by rw [hshows, htraced, hfresh]⟩

end Featherweight.Repl
