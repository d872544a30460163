import Featherweight.Proofs.Prints

/-!
# Featherweight.Proofs.SingleRoot

Texts that are run one after the other in the only frame of a fresh world, each with its own sink.

* `Store.SingleRoot` : going outwards from any frame one comes to frame `0`, and no other frame has a
  sink or a text.
* `Session.Between` : the worlds between the texts of such a session.
* `run_to_own_sink` : all that is printed while a text is run goes to the sink of that run, whatever
  closures print it, and an assignment to a name that is not bound goes to frame `0`.
-/

namespace Featherweight

/-- The frame lies in another one and has neither a sink nor a text. -/
structure Frame.Inner (a : Frame) : Prop where
  parent : a.parent.isSome
  sink : a.sink = none
  source : a.source = none

namespace Store

structure SingleRoot (s : Store) : Prop where
  walk : ∀ f < s.size, s.Walk f (s.chain f) ∧ (s.chain f).getLast? = some 0
  bare : ∀ (f : FrameId) (a : Frame), s[f]? = some a → f ≠ 0 → a.sink = none ∧ a.source = none

def Sheltered (s : Store) : Prop :=
  ∀ (f : FrameId) (a : Frame), s[f]? = some a → f ≠ 0 → a.Inner

structure Rooted (s : Store) : Prop where
  anchored : s.Anchored
  first : 0 < s.size
  sheltered : s.Sheltered

variable {s : Store} {f : FrameId}

theorem Rooted.eq_zero (h : s.Rooted) {a : Frame} (ha : s[f]? = some a) (hp : a.parent = none) :
    f = 0 := by
  by_contra hf
  have hsome := (h.sheltered f a ha hf).parent
  simp [hp] at hsome

theorem Rooted.getLast?_walk (h : s.Rooted) {fs : List FrameId} (hw : s.Walk f fs) :
    fs.getLast? = some 0 := by
  induction hw with
  | root ha hp => simp [h.eq_zero ha hp]
  | outwards _ _ _ ih => simp [List.getLast?_cons, ih]

/-- What no inner frame has is found at the root. -/
theorem Rooted.findSome?_walk {α : Type} (h : s.Rooted) {field : Frame → Option α}
    (hfield : ∀ g a, s[g]? = some a → g ≠ 0 → field a = none) {fs : List FrameId}
    (hw : s.Walk f fs) : (fs.findSome? fun g => (s[g]?).bind field) = (s[0]?).bind field := by
  induction hw with
  | root ha hp => simp [h.eq_zero ha hp]
  | @outwards f p a fs ha hp hwalk ih =>
    have hf : f ≠ 0 := by
      rintro rfl
      exact Nat.not_lt_zero p (h.anchored.parent ha hp)
    simp [ha, hfield f a ha hf, ih]

theorem Rooted.singleRoot (h : s.Rooted) : s.SingleRoot where
  walk f hf := by
    have hwalk := h.anchored.walk_chain hf
    exact ⟨hwalk, h.getLast?_walk hwalk⟩
  bare f a ha hf := ⟨(h.sheltered f a ha hf).sink, (h.sheltered f a ha hf).source⟩

theorem Rooted.sink?_eq (h : s.Rooted) (hf : f < s.size) : s.sink? f = (s[0]?).bind (·.sink) :=
  h.findSome?_walk (fun g a ha hg => (h.sheltered g a ha hg).sink) (h.anchored.walk_chain hf)

theorem Rooted.source?_eq (h : s.Rooted) (hf : f < s.size) :
    s.source? f = (s[0]?).bind (·.source) :=
  h.findSome?_walk (fun g a ha hg => (h.sheltered g a ha hg).source) (h.anchored.walk_chain hf)

theorem SingleRoot.update_eq (h : s.SingleRoot) (hf : f < s.size) {x : String}
    (hx : s.owner? f x = none) (v : Value) : s.update f x v = s.set 0 x v := by
  rw [update, hx, root, List.getLastD_eq_getLast?, (h.walk f hf).2]
  rfl

theorem Sheltered.modify (h : s.Sheltered) (f : FrameId) {k : Frame → Frame}
    (hk : f ≠ 0 → ∀ a : Frame, a.Inner → (k a).Inner) : Sheltered (s.modify f k) := by
  intro g b hb hg
  rw [Array.getElem?_modify] at hb
  split at hb
  · rename_i hfg
    obtain ⟨a, ha, rfl⟩ := Option.map_eq_some_iff.1 hb
    exact hk (hfg ▸ hg) a (h g a ha hg)
  · exact h g b hb hg

theorem Sheltered.push (h : s.Sheltered) (parent : FrameId) :
    Sheltered (s.push (.fresh (some parent) none none)) := by
  intro g b hb hg
  rcases push_cases hb with ⟨-, rfl⟩ | hb
  · exact ⟨rfl, rfl, rfl⟩
  · exact h g b hb hg

end Store

theorem World.Steps.size_le {w w' : World} (h : w.Steps w') : w.store.size ≤ w'.store.size := by
  by_contra hlt
  obtain ⟨b, hb, -⟩ := h.grows w'.store.size _ (Array.getElem?_eq_getElem (Nat.lt_of_not_le hlt))
  exact Nat.lt_irrefl _ (Array.getElem?_eq_some_iff.1 hb).1

theorem World.Step.sheltered {w w' : World} (h : w.Step w') (hw : w.store.Sheltered) :
    w'.store.Sheltered := by
  cases h with
  | set f x v => exact hw.modify f fun _ a ha => ⟨ha.parent, ha.sink, ha.source⟩
  | emit => exact hw
  | count f n => exact hw.modify f fun _ a ha => ⟨ha.parent, ha.sink, ha.source⟩
  | push parent => exact hw.push parent

theorem World.Steps.sheltered {w w' : World} (h : w.Steps w') (hw : w.store.Sheltered) :
    w'.store.Sheltered := by
  induction h with
  | refl => exact hw
  | tail _ hs ih => exact hs.sheltered ih

/-! ## Running one text -/

namespace Evaluation

variable {rounds : Nat} {ev : Evaluation} {u : World}

variable (hs : ev.world.store.Rooted) (hf : ev.frame < ev.world.store.size)
  (he : ∀ g, ev.tree.Captures g → g < ev.world.store.size)
include hs hf he

theorem Passes.rooted (h : ev.Passes rounds u) : u.store.Rooted where
  anchored := h.anchored hs.anchored hf he
  first := Nat.lt_of_lt_of_le hs.first h.steps.size_le
  sheltered := h.steps.sheltered hs.sheltered

/-- In the midst of an evaluation each frame finds what the root had at the start. -/
theorem Passes.found (h : ev.Passes rounds u) {a : Frame} (ha : ev.world.store[0]? = some a) :
    ∀ f < u.store.size, u.store.sink? f = a.sink ∧ u.store.source? f = a.source := by
  intro f hf'
  have hu := h.rooted hs hf he
  obtain ⟨b, hb, hab⟩ := h.steps.grows 0 a ha
  rw [hu.sink?_eq hf', hu.source?_eq hf', hb, ← hab.sink, ← hab.source]
  exact ⟨rfl, rfl⟩

/-- All that is printed goes to the sink of the root. -/
theorem Prints.sink_eq {entry : Option SinkId × Value} (h : ev.Prints rounds entry) {a : Frame}
    (ha : ev.world.store[0]? = some a) : entry.1 = a.sink := by
  obtain ⟨d, arg, pos, f, w, v, u, hreach, hv, rfl⟩ := h
  have hobeys : ev.Obeys (.assigning fun _ => True) := by
    refine ⟨Discipline.obeyed_iff_anchored.2 hs.anchored, ?_, hf⟩
    exact Discipline.ofFrames_code.2 ⟨fun _ _ _ _ _ _ => trivial, he⟩
  have hfw : f < w.store.size := (hobeys.reach hreach).frame
  have hwu : w.Steps u := (eval_stepwise rounds (d + 1) arg f).steps hv
  have hpass : ev.Passes rounds u := ⟨⟨d + 1, arg, f, w⟩, hreach.tail .print, .inr (by rw [hv])⟩
  exact (hpass.found hs hf he ha f (Nat.lt_of_lt_of_le hfw hwu.size_le)).1

theorem logs_to_root (rounds : Nat) {a : Frame} (ha : ev.world.store[0]? = some a) :
    ∃ printed : List Value, ev.world.Logs (ev.final rounds) (printed.map (a.sink, ·)) := by
  obtain ⟨out, hlog, hout⟩ := ev.logs_prints rounds
  refine ⟨out.map Prod.snd, ?_⟩
  have hsinks : (out.map Prod.snd).map (a.sink, ·) = out := by
    rw [List.map_map]
    refine (List.map_congr_left fun entry hentry => ?_).trans (List.map_id out)
    simp [← (hout entry hentry).sink_eq hs hf he ha]
  rwa [hsinks]

end Evaluation

/-! ## Sessions -/

namespace Session

/-- The worlds between the texts of a session, each of which is run with its own sink. -/
inductive Between : World → Prop where
  | fresh (own : Option SinkId) (source : Option String) : Between (.fresh own source)
  | run {w : World} (text : String) (sink : SinkId) :
      Between w → Between (run text 0 (some sink) w).2

variable {w : World}

theorem equip_rooted (h : w.store.Rooted) (sink : Option SinkId) (source : Option String) :
    (equip 0 sink source w).store.Rooted where
  anchored := by
    have hleads := equip_leads (Discipline.obeyed_iff_anchored.2 h.anchored) h.first sink source
    exact Discipline.obeyed_iff_anchored.1 hleads.obeyed
  first := by simpa [equip] using h.first
  sheltered := h.sheltered.modify 0 fun hne => absurd rfl hne

theorem equip_getElem?_zero (h : w.store.Rooted) (sink : SinkId) (source : String) :
    ∃ a, (equip 0 (some sink) (some source) w).store[0]? = some a ∧ a.sink = some sink ∧
      a.source = some source := by
  obtain ⟨b, hb⟩ : ∃ b, w.store[0]? = some b := ⟨_, Array.getElem?_eq_getElem h.first⟩
  refine ⟨{ b with sink := some sink, source := some source }, ?_, rfl, rfl⟩
  simp [equip, Array.getElem?_modify, hb]

theorem run_rooted (h : w.store.Rooted) (text : String) (sink : SinkId) :
    (run text 0 (some sink) w).2.store.Rooted := by
  rw [run]
  cases hparse : parse text with
  | error err => exact h
  | ok e =>
    have hstart := equip_rooted h (some sink) (some text)
    have hpass := Evaluation.passes_end maxRounds ⟨maxDepth, e, 0, equip 0 (some sink) (some text) w⟩
    rw [evalParsed_world]
    exact hpass.rooted hstart hstart.first fun g hg => absurd hg (not_captures_of_parse hparse g)

theorem fresh_rooted (own : Option SinkId) (source : Option String) :
    (World.fresh own source).store.Rooted where
  anchored := by
    refine ⟨fun ha hp => ?_, fun ha hv _ => ?_⟩
    all_goals obtain ⟨-, rfl⟩ := World.fresh_getElem? ha
    · cases hp
    · cases hv
  first := Nat.one_pos
  sheltered f a ha hf := absurd (World.fresh_getElem? ha).1 hf

theorem Between.rooted (h : Between w) : w.store.Rooted := by
  induction h with
  | fresh own source => exact fresh_rooted own source
  | run text sink _ ih => exact run_rooted ih text sink

end Session

/-- Let texts be run one after the other in the only frame of a fresh world, each with a sink. Then
frame `0` is at the end of each chain of frames and no other frame has a sink or a text, also in the
midst of an evaluation. A text that is refused changes nothing. What is printed while a text is run
goes to its sink, in the order of evaluation, and a name that is assigned to and is not bound comes
into being in frame `0`. -/
theorem run_to_own_sink (w : World) (text : String) (sink : SinkId) (hw : Session.Between w) :
    w.store.SingleRoot ∧
    (∀ err, parse text = .error err →
      Session.run text 0 (some sink) w = (.error (.parse err), w)) ∧
    ∀ e, parse text = .ok e → ∃ printed : List Value,
      w.Logs (Session.run text 0 (some sink) w).2 (printed.map (some sink, ·)) ∧
      (∀ o w', (Session.evalIn 0 e).Ends (Session.equip 0 (some sink) (some text) w) o w' →
        Evaluates e 0 (Session.equip 0 (some sink) (some text) w).store
          (printed.map (some sink, ·)) o w'.store) ∧
      ∀ u, Evaluation.Passes maxRounds
          ⟨maxDepth, e, 0, Session.equip 0 (some sink) (some text) w⟩ u →
        u.store.SingleRoot ∧
        (∃ before, before <+: printed ∧ w.Logs u (before.map (some sink, ·))) ∧
        ∀ f < u.store.size, u.store.sink? f = some sink ∧ u.store.source? f = some text ∧
          ∀ x v, u.store.owner? f x = none → u.store.update f x v = u.store.set 0 x v := by
  have hrooted := hw.rooted
  refine ⟨hrooted.singleRoot, fun err herr => ?_, fun e he => ?_⟩
  · rw [Session.run, herr, Session.evalParsed]
  have hstart := Session.equip_rooted hrooted (some sink) (some text)
  obtain ⟨a, ha, hsink, hsource⟩ := Session.equip_getElem?_zero hrooted sink text
  have hcaptures (g : FrameId) (hg : e.Captures g) :
      g < (Session.equip 0 (some sink) (some text) w).store.size :=
    absurd hg (Session.not_captures_of_parse he g)
  let ev : Evaluation := ⟨maxDepth, e, 0, Session.equip 0 (some sink) (some text) w⟩
  obtain ⟨printed, hprinted⟩ := ev.logs_to_root hstart hstart.first hcaptures maxRounds ha
  rw [hsink] at hprinted
  refine ⟨printed, ?_, fun o w' hends => ?_, fun u hu => ⟨?_, ?_, fun f hf => ?_⟩⟩
  · rw [Session.run, he, Session.evalParsed_world]
    exact hprinted
  · obtain ⟨out, hout, heval⟩ := eval_sound maxRounds maxDepth hends
    obtain rfl : ev.final maxRounds = w' := hends.2
    rwa [hprinted.unique hout]
  · exact (hu.rooted hstart hstart.first hcaptures).singleRoot
  · obtain ⟨out₁, hout₁⟩ := hu.steps.logs
    obtain ⟨out₂, hout₂⟩ := hu.steps_end.logs
    obtain ⟨before, behind, rfl, rfl, -⟩ :=
      List.map_eq_append_iff.1 (hprinted.unique (hout₁.trans hout₂))
    exact ⟨before, List.prefix_append before behind, hout₁⟩
  · obtain ⟨hsink', hsource'⟩ := hu.found hstart hstart.first hcaptures ha f hf
    refine ⟨hsink'.trans hsink, hsource'.trans hsource, fun x v hx => ?_⟩
    exact (hu.rooted hstart hstart.first hcaptures).singleRoot.update_eq hf hx v

/-- A function that was made in a call is bound to `h`; then a text is refused. -/
def printerWorld : World :=
  let define :=
    "function f(n) \x7b print(n); function() \x7b print(n + 1); seen = n; \x7d; \x7d var h = f(3);"
  (Session.run "1 +" 0 (some 1) (Session.run define 0 (some 0) (.fresh none none)).2).2

/-- The closure of the first text prints to the sink of the third, which then fails. -/
theorem run_to_own_sink_closure :
    Session.Between printerWorld ∧ (parse "h(); h(4);").isOk ∧
    ((Session.run "h(); h(4);" 0 (some 2) printerWorld).1.isOk = false ∧
      (Session.run "h(); h(4);" 0 (some 2) printerWorld).2.log.map Prod.fst = [some 2, some 0] ∧
      (Session.run "h(); h(4);" 0 (some 2) printerWorld).2.store.chain 2 = [2, 1, 0]) ∧
    printerWorld.store.SingleRoot ∧
    ∃ printed : List Value, printerWorld.Logs
      (Session.run "h(); h(4);" 0 (some 2) printerWorld).2 (printed.map (some 2, ·)) := by
  have hbetween : Session.Between printerWorld := .run _ _ (.run _ _ (.fresh none none))
  have hread : (parse "h(); h(4);").isOk = true := by decide +kernel
  obtain ⟨e, he⟩ : ∃ e, parse "h(); h(4);" = .ok e := by
    cases h : parse "h(); h(4);" with
    | ok e => exact ⟨e, rfl⟩
    | error err => rw [h] at hread; cases hread
  obtain ⟨hsingle, -, hruns⟩ := run_to_own_sink printerWorld "h(); h(4);" 2 hbetween
  obtain ⟨printed, hprinted, -⟩ := hruns e he
  exact ⟨hbetween, hread, by decide +kernel, hsingle, printed, hprinted⟩

end Featherweight
